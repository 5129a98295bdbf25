import Mathlib.Data.List.Nodup
import Mathlib.Data.List.Perm.Basic
import Mathlib.Algebra.GroupWithZero.Nat

/- Finite maps as lists of entries.

   A `Table` holds at most one entry for a key when it is built with `set` and
   `erase`; `get` finds the first. The order of the entries is the order a loop
   over the map takes. -/
namespace Dep2p.Lib

open List

/-- A finite map from `K` to `V`. -/
structure Table (K V : Type) where
  entries : List (K × V) := []
  deriving DecidableEq, Repr

namespace Table

variable {K V : Type} [DecidableEq K]

def get (t : Table K V) (k : K) : Option V := (t.entries.find? (·.1 = k)).map (·.2)

def erase (t : Table K V) (k : K) : Table K V := ⟨t.entries.filter (·.1 ≠ k)⟩

def set (t : Table K V) (k : K) (v : V) : Table K V := ⟨(k, v) :: (t.erase k).entries⟩

variable (t : Table K V) (k k' : K) (v : V)

@[simp] theorem get_empty : (⟨[]⟩ : Table K V).get k = none := rfl

@[simp] theorem get_erase_self : (t.erase k).get k = none := by
  simp [get, erase]

theorem get_erase_ne {k k' : K} (h : k' ≠ k) : (t.erase k).get k' = t.get k' := by
  unfold get erase
  rw [find?_filter]
  congr 2
  funext p
  by_cases hp : p.1 = k'
  · simp [hp, h]
  · simp [hp]

@[simp] theorem get_set_self : (t.set k v).get k = some v := by
  simp [get, set]

theorem get_set_ne {k k' : K} (h : k' ≠ k) : (t.set k v).get k' = t.get k' := by
  have hhead : (t.set k v).get k' = (t.erase k).get k' := by
    simp [get, set, h.symm]
  rw [hhead, get_erase_ne t h]

theorem get_set : (t.set k v).get k' = if k' = k then some v else t.get k' := by
  by_cases h : k' = k
  · rw [if_pos h, h, get_set_self]
  · rw [if_neg h, get_set_ne t v h]

theorem get_erase : (t.erase k).get k' = if k' = k then none else t.get k' := by
  by_cases h : k' = k
  · rw [if_pos h, h, get_erase_self]
  · rw [if_neg h, get_erase_ne t h]

/-! ## The entries of a table -/

/-- No key has two entries. -/
def Keyed (t : Table K V) : Prop := (t.entries.map (·.1)).Nodup

instance (t : Table K V) : Decidable t.Keyed := inferInstanceAs (Decidable (List.Nodup _))

omit [DecidableEq K] in
theorem keyed_empty : (⟨[]⟩ : Table K V).Keyed := nodup_nil

theorem Keyed.erase {t : Table K V} (h : t.Keyed) (k : K) : (t.erase k).Keyed :=
  .sublist (.map _ filter_sublist) h

theorem Keyed.set {t : Table K V} (h : t.Keyed) (k : K) (v : V) : (t.set k v).Keyed := by
  unfold Keyed Table.set
  rw [map_cons, nodup_cons]
  refine ⟨?_, h.erase k⟩
  intro hk
  obtain ⟨e, he, hek⟩ := mem_map.mp hk
  have hne := (mem_filter.mp he).2
  simp [hek] at hne

/-- The entries are what `get` finds. -/
theorem Keyed.mem_iff {t : Table K V} (h : t.Keyed) {k : K} {v : V} :
    (k, v) ∈ t.entries ↔ t.get k = some v := by
  obtain ⟨es⟩ := t
  unfold Keyed at h
  unfold get
  induction es with
  | nil => simp
  | cons e es ih =>
    rw [map_cons, nodup_cons] at h
    have hrest := ih h.2
    by_cases hk : e.1 = k
    · have hnot : (k, v) ∉ es := fun hm => h.1 (mem_map.mpr ⟨(k, v), hm, hk.symm⟩)
      simp only [mem_cons, hnot, or_false, find?_cons, hk, decide_true, Option.map_some,
        Option.some.injEq]
      constructor
      · intro he
        rw [← he]
      · intro he
        rw [← hk, ← he]
    · have hne : (k, v) ≠ e := fun he => hk (by rw [← he])
      simp only [mem_cons, hne, false_or, find?_cons, hk]
      exact hrest

omit [DecidableEq K] in
theorem Keyed.nodup {t : Table K V} (h : t.Keyed) : t.entries.Nodup := List.Nodup.of_map _ h

/-- Setting a key to the value it has moves its entry to the front. -/
theorem Keyed.perm_set {t : Table K V} (h : t.Keyed) {k : K} {v : V} (hk : t.get k = some v) :
    t.entries.Perm (t.set k v).entries := by
  refine (perm_ext_iff_of_nodup h.nodup (h.set k v).nodup).mpr ?_
  rintro ⟨k', v'⟩
  rw [h.mem_iff, (h.set k v).mem_iff, get_set]
  split
  · rename_i heq
    rw [heq, hk]
  · rfl

/-! ## Entries with a property -/

/-- How many entries have a property. -/
def count (p : K → V → Bool) (t : Table K V) : Nat := t.entries.countP fun e => p e.1 e.2

theorem count_set (p : K → V → Bool) :
    (t.set k v).count p = (t.erase k).count p + if p k v then 1 else 0 := by
  simp [count, set, countP_cons]

theorem Keyed.count_erase {t : Table K V} (h : t.Keyed) {k : K} {v : V} (hk : t.get k = some v)
    (p : K → V → Bool) : t.count p = (t.erase k).count p + if p k v then 1 else 0 := by
  rw [← count_set]
  exact (h.perm_set hk).countP_eq _

/-! ## The weight of a table -/

/-- The sum of a weight over the entries. -/
def weight (w : V → Nat) (t : Table K V) : Nat := (t.entries.map fun e => w e.2).sum

theorem weight_erase_le (w : V → Nat) : (t.erase k).weight w ≤ t.weight w := by
  unfold weight erase
  induction t.entries with
  | nil => exact Nat.le_refl _
  | cons e es ih =>
    rw [filter_cons]
    split
    · simp only [map_cons]
      exact Nat.add_le_add_left ih _
    · simp only [map_cons]
      exact Nat.le_trans ih (Nat.le_add_left _ _)

/-- Erasing a key takes at least the weight of its entry away. -/
theorem weight_erase_add {w : V → Nat} {t : Table K V} {k : K} {v : V} (h : t.get k = some v) :
    (t.erase k).weight w + w v ≤ t.weight w := by
  obtain ⟨es⟩ := t
  unfold get at h
  unfold weight erase
  induction es with
  | nil => cases h
  | cons e es ih =>
    rw [filter_cons]
    by_cases hk : e.1 = k
    · simp only [find?_cons, hk, decide_true, Option.map_some, Option.some.injEq] at h
      have hrest := weight_erase_le (⟨es⟩ : Table K V) k w
      simp only [weight, erase, ne_eq] at hrest
      simp only [hk, ne_eq, not_true_eq_false, decide_false, Bool.false_eq_true, if_false,
        map_cons, sum_cons, h]
      omega
    · simp only [find?_cons, hk] at h
      have hrest := ih h
      simp only [ne_eq] at hrest
      simp only [hk, ne_eq, not_false_eq_true, decide_true, if_true, map_cons, sum_cons]
      omega

theorem weight_set (w : V → Nat) : (t.set k v).weight w = w v + (t.erase k).weight w := rfl

/-! ## Sums over a table -/

theorem erase_of_get_none {t : Table K V} {k : K} (h : t.get k = none) : t.erase k = t := by
  have hfind : t.entries.find? (·.1 = k) = none := Option.map_eq_none_iff.mp h
  have hall : t.entries.filter (·.1 ≠ k) = t.entries := by
    rw [filter_eq_self]
    intro e he
    have hne := find?_eq_none.mp hfind e he
    simpa using hne
  unfold erase
  rw [hall]

section Total

variable {M : Type} [Add M] [Zero M]

/-- The sum of a quantity over the entries, in any type with a sum. -/
def total (f : V → M) (t : Table K V) : M := (t.entries.map fun e => f e.2).sum

theorem total_set (f : V → M) : (t.set k v).total f = f v + (t.erase k).total f := rfl

/-- In a table with one entry for a key, erasing the key takes exactly its entry away. -/
theorem Keyed.total_erase [Std.Associative (α := M) (· + ·)] [Std.Commutative (α := M) (· + ·)]
    {t : Table K V} (ht : t.Keyed) {k : K} {v : V} (h : t.get k = some v) (f : V → M) :
    t.total f = f v + (t.erase k).total f := by
  have hperm : (t.entries.map fun e => f e.2).Perm ((t.set k v).entries.map fun e => f e.2) :=
    (ht.perm_set h).map _
  exact @Perm.foldr_op_eq M (· + ·) _ _ _ _ 0 hperm

end Total

/-! ## One function on every value -/

section MapValues

variable {W : Type}

def mapValues (g : V → W) (t : Table K V) : Table K W := ⟨t.entries.map fun e => (e.1, g e.2)⟩

omit [DecidableEq K] in
theorem Keyed.mapValues {t : Table K V} (h : t.Keyed) (g : V → W) : (t.mapValues g).Keyed := by
  unfold Keyed Table.mapValues
  rw [map_map]
  exact h

omit [DecidableEq K] in
theorem mem_mapValues {t : Table K V} {g : V → W} {k : K} {w : W} :
    (k, w) ∈ (t.mapValues g).entries ↔ ∃ v, (k, v) ∈ t.entries ∧ g v = w := by
  simp [mapValues]

omit [DecidableEq K] in
theorem total_mapValues {M : Type} [Add M] [Zero M] (g : V → W) (f : W → M) (t : Table K V) :
    (t.mapValues g).total f = t.total fun v => f (g v) := by
  simp [total, mapValues, Function.comp_def]

end MapValues

end Table

end Dep2p.Lib
