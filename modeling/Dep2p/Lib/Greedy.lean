import Mathlib.Data.List.Basic

/- Greedy selection: whole bundles are taken from the front of a list until a target is
   met.

   What is taken is the shortest prefix whose items meet the target, or everything where
   no prefix does (`pick_spec`). -/
namespace Dep2p.Lib

open List

variable {α β : Type}

/-- Take the items of `xs` bundle by bundle while the target is positive; the second
component is what is left of the target. -/
def pick (items : α → List β) (target : Int) : List α → List β × Int
  | [] => ([], target)
  | x :: xs =>
    if target ≤ 0 then ([], target)
    else
      let (picked, left) := pick items (target - (items x).length) xs
      (items x ++ picked, left)

/-- The items of the first `n` bundles. -/
def bundled (items : α → List β) (xs : List α) (n : Nat) : List β := (xs.take n).flatMap items

/-- `n` is the length of the shortest prefix that meets the target, or of the whole list
where there is none. -/
structure Shortest (items : α → List β) (target : Int) (xs : List α) (n : Nat) : Prop where
  le : n ≤ xs.length
  enough : target ≤ (bundled items xs n).length ∨ n = xs.length
  least : ∀ m, m < n → ((bundled items xs m).length : Int) < target

variable {items : α → List β} {target : Int} {x : α} {xs : List α} {n : Nat}

theorem bundled_cons_succ : bundled items (x :: xs) (n + 1) = items x ++ bundled items xs n := by
  unfold bundled
  rw [take_succ_cons, flatMap_cons]

theorem bundled_all : bundled items xs xs.length = xs.flatMap items := by
  unfold bundled
  rw [take_length]

theorem Shortest.zero (h : target ≤ 0) : Shortest items target xs 0 :=
  ⟨Nat.zero_le _, .inl h, fun _ hm => absurd hm (Nat.not_lt_zero _)⟩

theorem Shortest.cons (hpos : 0 < target)
    (h : Shortest items (target - (items x).length) xs n) :
    Shortest items target (x :: xs) (n + 1) := by
  refine ⟨Nat.succ_le_succ h.le, ?_, ?_⟩
  · rw [bundled_cons_succ, length_append]
    rcases h.enough with henough | hall
    · left
      omega
    · right
      rw [hall, length_cons]
  · intro m hm
    cases m with
    | zero => exact hpos
    | succ m =>
      have hlt := h.least m (Nat.lt_of_succ_lt_succ hm)
      rw [bundled_cons_succ, length_append]
      omega

/-- The greedy selection is a shortest prefix. -/
theorem pick_spec (items : α → List β) (target : Int) (xs : List α) :
    ∃ n, Shortest items target xs n ∧ (pick items target xs).1 = bundled items xs n ∧
      (pick items target xs).2 = target - (bundled items xs n).length := by
  induction xs generalizing target with
  | nil => exact ⟨0, ⟨Nat.le_refl _, .inr rfl, fun _ hm => absurd hm (Nat.not_lt_zero _)⟩, rfl,
      (Int.sub_zero _).symm⟩
  | cons x xs ih =>
    unfold pick
    split
    · rename_i htarget
      exact ⟨0, .zero htarget, rfl, (Int.sub_zero _).symm⟩
    · rename_i htarget
      obtain ⟨n, hn, hpicked, hleft⟩ := ih (target - (items x).length)
      refine ⟨n + 1, hn.cons (Int.not_le.mp htarget), ?_, ?_⟩
      · rw [bundled_cons_succ, ← hpicked]
      · rw [bundled_cons_succ, length_append]
        rw [hleft]
        omega

end Dep2p.Lib
