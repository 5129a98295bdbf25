import Mathlib.Algebra.Group.Basic
import Mathlib.Data.List.Nodup

/- Total maps from keys to states, changed one key at a time.

   Two ways of visiting a list of keys are developed. `modifyEach` applies one
   function at every key of the list. `allOrNothing` applies a fallible function
   key by key and, at the first refusal, an undo function at the keys already
   visited. Both are described pointwise, so that a caller reads off what became
   of a key without following the loop. -/
namespace Dep2p.Lib

open List

/-- A state for every key. -/
abbrev Store (K S : Type) := K → S

namespace Store

section modify

variable {K S : Type} [DecidableEq K]

/-- `f` at the key `k`. -/
def modify (g : Store K S) (k : K) (f : S → S) : Store K S := Function.update g k (f (g k))

@[simp] theorem modify_self (g : Store K S) (k : K) (f : S → S) : g.modify k f k = f (g k) := by
  simp [modify]

theorem modify_of_ne {k k' : K} (h : k' ≠ k) (g : Store K S) (f : S → S) :
    g.modify k f k' = g k' := by
  simp [modify, h]

theorem modify_apply (g : Store K S) (k k' : K) (f : S → S) :
    g.modify k f k' = if k' = k then f (g k) else g k' := by
  simp [modify, Function.update_apply]

/-- `f` at every listed key, in order. -/
def modifyEach (f : S → S) (ks : List K) (g : Store K S) : Store K S :=
  ks.foldl (fun g k => modify g k f) g

@[simp] theorem modifyEach_nil (f : S → S) (g : Store K S) : modifyEach f [] g = g := rfl

@[simp] theorem modifyEach_cons (f : S → S) (k : K) (ks : List K) (g : Store K S) :
    modifyEach f (k :: ks) g = modifyEach f ks (g.modify k f) := rfl

/-- A key is changed once for every time it is listed. -/
theorem modifyEach_apply (f : S → S) (ks : List K) (g : Store K S) (k : K) :
    modifyEach f ks g k = f^[ks.count k] (g k) := by
  induction ks generalizing g with
  | nil => rfl
  | cons a ks ih =>
    rw [modifyEach_cons, ih, modify_apply]
    by_cases h : k = a
    · subst h; simp
    · have h' : a ≠ k := fun e => h e.symm
      simp [h, h']

theorem modifyEach_of_notMem {f : S → S} {ks : List K} {k : K} (h : k ∉ ks) (g : Store K S) :
    modifyEach f ks g k = g k := by
  rw [modifyEach_apply, count_eq_zero_of_not_mem h]; rfl

/-- Without repetitions the order of the keys does not matter. -/
theorem modifyEach_of_nodup {f : S → S} {ks : List K} (hn : ks.Nodup) (g : Store K S) (k : K) :
    modifyEach f ks g k = if k ∈ ks then f (g k) else g k := by
  split
  · rename_i h; rw [modifyEach_apply, count_eq_one_of_mem hn h]; rfl
  · rename_i h; exact modifyEach_of_notMem h g

/-- A property of states that `f` keeps holds after the visit where it held before. -/
theorem modifyEach_induction {P : S → Prop} {f : S → S} (hf : ∀ s, P s → P (f s)) (ks : List K)
    {g : Store K S} {k : K} (h : P (g k)) : P (modifyEach f ks g k) := by
  rw [modifyEach_apply]
  exact Function.Iterate.rec P h hf _

/-- A field that `f` keeps is kept by the visit. -/
theorem modifyEach_keep {B : Type} {π : S → B} {f : S → S} (hf : ∀ s, π (f s) = π s) (ks : List K)
    (g : Store K S) (k : K) : π (modifyEach f ks g k) = π (g k) :=
  modifyEach_induction (fun s h => (hf s).trans h) ks rfl

/-- A quantity to which `f` adds `d` grows by `d` for every time the key is listed. -/
theorem modifyEach_add {M : Type} [AddMonoid M] {π : S → M} {d : M} {f : S → S}
    (hf : ∀ s, π (f s) = π s + d) (ks : List K) (g : Store K S) (k : K) :
    π (modifyEach f ks g k) = π (g k) + ks.count k • d := by
  have hiter : ∀ (n : Nat) (s : S), π (f^[n] s) = π s + n • d := by
    intro n
    induction n with
    | zero => intro s; simp
    | succ n ih => intro s; rw [Function.iterate_succ_apply, ih, hf, succ_nsmul', add_assoc]
  rw [modifyEach_apply, hiter]

/-- Two visits of one list compose key by key. -/
theorem modifyEach_comp {f f' : S → S} {ks : List K} (hn : ks.Nodup) (g : Store K S) :
    modifyEach f' ks (modifyEach f ks g) = modifyEach (f' ∘ f) ks g := by
  funext k
  simp only [modifyEach_of_nodup hn]
  split <;> rfl

end modify

/-! ## Taking at every key or at none -/

/-- Either every key satisfies `p`, or there is a first one that does not. -/
theorem forall_or_first {K : Type} (p : K → Prop) (ks : List K) :
    (∀ k ∈ ks, p k) ∨ ∃ pre k post, ks = pre ++ k :: post ∧ (∀ x ∈ pre, p x) ∧ ¬ p k := by
  induction ks with
  | nil => exact .inl (by simp)
  | cons a ks ih =>
    by_cases ha : p a
    · rcases ih with h | ⟨pre, k, post, rfl, hpre, hk⟩
      · exact .inl (by simpa [ha] using h)
      · exact .inr ⟨a :: pre, k, post, rfl, by simpa [ha] using hpre, hk⟩
    · exact .inr ⟨[], a, ks, rfl, by simp, ha⟩

section allOrNothing

variable {K S E : Type} [DecidableEq K] (take : S → Except E S) (undo : S → S)

/-- `take` at every key in order, up to the first refusal; also how many keys
were taken. -/
def takeEach : List K → Store K S → Nat → Store K S × Nat × Option E
  | [], g, n => (g, n, none)
  | k :: ks, g, n =>
    match take (g k) with
    | .error err => (g, n, some err)
    | .ok s => takeEach ks (Function.update g k s) (n + 1)

/-- `takeEach`, and `undo` at the taken keys when one refuses. -/
def allOrNothing (ks : List K) (g : Store K S) : Store K S × Option E :=
  match takeEach take ks g 0 with
  | (g', _, none) => (g', none)
  | (g', n, some err) => (modifyEach undo (ks.take n) g', some err)

/-- The state after an accepted `take`. -/
def taken (s : S) : S :=
  match take s with
  | .error _ => s
  | .ok s' => s'

/-- `take` accepts the state. -/
def Accepts (s : S) : Prop := ∃ s', take s = .ok s'

variable {take}

theorem not_accepts {s : S} : ¬ Accepts take s ↔ ∃ err, take s = .error err := by
  unfold Accepts
  cases take s <;> simp

theorem takeEach_cons_accepts {k : K} {g : Store K S} (h : Accepts take (g k)) (ks : List K)
    (n : Nat) : takeEach take (k :: ks) g n = takeEach take ks (g.modify k (taken take)) (n + 1) := by
  obtain ⟨s', hs⟩ := h
  simp [takeEach, hs, modify, taken]

/-- The visit of a prefix that accepts. -/
theorem takeEach_append {pre : List K} (hn : pre.Nodup) (post : List K) {g : Store K S} (n : Nat)
    (h : ∀ k ∈ pre, Accepts take (g k)) :
    takeEach take (pre ++ post) g n =
      takeEach take post (modifyEach (taken take) pre g) (n + pre.length) := by
  induction pre generalizing g n with
  | nil => rfl
  | cons k ks ih =>
    obtain ⟨hk, hks⟩ := nodup_cons.mp hn
    have hrest : ∀ x ∈ ks, Accepts take (g.modify k (taken take) x) := by
      intro x hx
      have hne : x ≠ k := by rintro rfl; exact hk hx
      rw [modify_of_ne hne]
      exact h x (mem_cons_of_mem _ hx)
    rw [cons_append, takeEach_cons_accepts (h k mem_cons_self), ih hks (n + 1) hrest,
      modifyEach_cons, length_cons, Nat.add_assoc, Nat.add_comm 1]

theorem allOrNothing_accepts {ks : List K} (hn : ks.Nodup) {g : Store K S}
    (h : ∀ k ∈ ks, Accepts take (g k)) :
    allOrNothing take undo ks g = (modifyEach (taken take) ks g, none) := by
  have hrun := takeEach_append hn [] 0 h
  rw [append_nil] at hrun
  simp [allOrNothing, hrun, takeEach]

/-- The first key that refuses decides the error; the keys before it are taken
and undone, the keys after it are not visited. -/
theorem allOrNothing_refuses {pre post : List K} {k : K} (hn : (pre ++ k :: post).Nodup)
    {g : Store K S} {err : E} (h : ∀ x ∈ pre, Accepts take (g x)) (hk : take (g k) = .error err) :
    allOrNothing take undo (pre ++ k :: post) g =
      (modifyEach (undo ∘ taken take) pre g, some err) := by
  have hpre : pre.Nodup := hn.of_append_left
  have hmem : k ∉ pre := by
    intro hmem
    exact (nodup_append.mp hn).2.2 k hmem k mem_cons_self rfl
  have hrun := takeEach_append hpre (k :: post) 0 h
  rw [Nat.zero_add] at hrun
  simp only [takeEach, modifyEach_of_notMem hmem, hk] at hrun
  simp only [allOrNothing, hrun, take_left, modifyEach_comp hpre]

end allOrNothing

end Store

end Dep2p.Lib
