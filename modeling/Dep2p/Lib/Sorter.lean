import Mathlib.Data.List.Perm.Basic
import Mathlib.Data.List.Nodup
import Mathlib.Order.Lattice

/- Sorting by a comparison that is given as a function.

   What `sort.Slice` returns is only determined where the comparison orders the list:
   a `Sorter` returns a rearrangement of the list in every case, and a sorted one where
   the comparison is strict and total between different members. The function may say
   anything about an element and itself, since no element is compared with itself.

   A sorted rearrangement is then the only one (`Sorter.eq_sort`), from which sorting
   commutes with filters and with maps that keep the comparison. -/
namespace Dep2p.Lib

open List

variable {α β κ : Type}

/-- Every order of what a partial map leaves of a list comes from an order of the list. -/
theorem exists_perm_filterMap (f : α → Option β) (l : List α) {fs : List β}
    (h : fs.Perm (l.filterMap f)) : ∃ es : List α, es.Perm l ∧ es.filterMap f = fs := by
  induction l generalizing fs with
  | nil => exact ⟨[], .refl _, (perm_nil.mp h).symm⟩
  | cons x l ih =>
    cases hx : f x with
    | none =>
      rw [filterMap_cons_none hx] at h
      obtain ⟨es, hperm, hfs⟩ := ih h
      exact ⟨x :: es, hperm.cons x, by rw [filterMap_cons_none hx, hfs]⟩
    | some y =>
      rw [filterMap_cons_some hx] at h
      -- put the element where its image is among the others
      obtain ⟨fs₁, fs₂, rfl⟩ := append_of_mem (h.symm.subset mem_cons_self)
      have hrest : (fs₁ ++ fs₂).Perm (l.filterMap f) := (perm_middle.symm.trans h).cons_inv
      obtain ⟨es, hperm, hfs⟩ := ih hrest
      obtain ⟨es₁, es₂, rfl, h₁, h₂⟩ := filterMap_eq_append_iff.mp hfs
      refine ⟨es₁ ++ x :: es₂, perm_middle.trans (hperm.cons x), ?_⟩
      rw [filterMap_append, filterMap_cons_some hx, h₁, h₂]

/-- Different members of the list are ordered strictly and totally, and differ. -/
structure StrictOn (less : α → α → Bool) (l : List α) : Prop where
  nodup : l.Nodup
  total : ∀ a ∈ l, ∀ b ∈ l, a ≠ b → less a b = true ∨ less b a = true
  asymm : ∀ a ∈ l, ∀ b ∈ l, a ≠ b → less a b = true → ¬ less b a = true
  trans : ∀ a ∈ l, ∀ b ∈ l, ∀ c ∈ l, a ≠ b → b ≠ c → less a b = true → less b c = true →
    less a c = true

namespace StrictOn

variable {less : α → α → Bool} {l l' : List α}

/-- A comparison by a key that no two members share. -/
theorem of_key [LinearOrder κ] (key : α → κ) (hnodup : (l.map key).Nodup)
    (h : ∀ a ∈ l, ∀ b ∈ l, a ≠ b → (less a b = true ↔ key a < key b)) : StrictOn less l where
  nodup := hnodup.of_map
  total a ha b hb hne := by
    rw [h a ha b hb hne, h b hb a ha hne.symm]
    exact lt_or_gt_of_ne fun heq => hne (inj_on_of_nodup_map hnodup ha hb heq)
  asymm a ha b hb hne := by
    rw [h a ha b hb hne, h b hb a ha hne.symm]
    exact lt_asymm
  trans a ha b hb c hc hab hbc hlt hlt' := by
    rw [h a ha b hb hab] at hlt
    rw [h b hb c hc hbc] at hlt'
    have hac := lt_trans hlt hlt'
    have hne : a ≠ c := fun heq => absurd hac (by rw [heq]; exact lt_irrefl _)
    exact (h a ha c hc hne).mpr hac

section

variable (h : StrictOn less l)
include h

theorem of_subset (hnodup : l'.Nodup) (hsub : l' ⊆ l) : StrictOn less l' where
  nodup := hnodup
  total a ha b hb := h.total a (hsub ha) b (hsub hb)
  asymm a ha b hb := h.asymm a (hsub ha) b (hsub hb)
  trans a ha b hb c hc := h.trans a (hsub ha) b (hsub hb) c (hsub hc)

theorem filter (p : α → Bool) : StrictOn less (l.filter p) :=
  h.of_subset (h.nodup.filter p) filter_sublist.subset

theorem of_perm (hperm : l'.Perm l) : StrictOn less l' :=
  h.of_subset (hperm.nodup_iff.mpr h.nodup) hperm.subset

/-- Another comparison that agrees between different members. -/
theorem congr {less' : α → α → Bool} (heq : ∀ a ∈ l, ∀ b ∈ l, a ≠ b → less' a b = less a b) :
    StrictOn less' l where
  nodup := h.nodup
  total a ha b hb hne := by
    rw [heq a ha b hb hne, heq b hb a ha hne.symm]
    exact h.total a ha b hb hne
  asymm a ha b hb hne := by
    rw [heq a ha b hb hne, heq b hb a ha hne.symm]
    exact h.asymm a ha b hb hne
  trans a ha b hb c hc hab hbc hlt hlt' := by
    rw [heq a ha b hb hab] at hlt
    rw [heq b hb c hc hbc] at hlt'
    have hac : a ≠ c := by
      rintro rfl
      exact h.asymm a ha b hb hab hlt hlt'
    rw [heq a ha c hc hac]
    exact h.trans a ha b hb c hc hab hbc hlt hlt'

end

end StrictOn

/-- A sorting procedure over a comparison. -/
structure Sorter (α : Type) where
  sort : (α → α → Bool) → List α → List α
  perm : ∀ less l, (sort less l).Perm l
  sorted : ∀ less l, StrictOn less l → (sort less l).Pairwise fun a b => less a b = true

namespace Sorter

variable (s : Sorter α) {less : α → α → Bool} {l l' : List α}

/-- A sorted rearrangement is what the sorter returns. -/
theorem eq_sort (h : StrictOn less l) (hperm : l'.Perm l)
    (hsorted : l'.Pairwise fun a b => less a b = true) : l' = s.sort less l := by
  refine Perm.eq_of_pairwise ?_ hsorted (s.sorted less l h) (hperm.trans (s.perm less l).symm)
  intro a b ha hb hab hba
  by_contra hne
  exact h.asymm a (hperm.subset ha) b ((s.perm less l).subset hb) hne hab hba

theorem sort_filter (h : StrictOn less l) (p : α → Bool) :
    (s.sort less l).filter p = s.sort less (l.filter p) :=
  s.eq_sort (h.filter p) ((s.perm less l).filter p) ((s.sorted less l h).filter p)

/-- Sorting commutes with a map that keeps the comparison, also from one sorter to another. -/
theorem sort_map (s' : Sorter β) {less' : β → β → Bool} (f : α → β) (h : StrictOn less l)
    (h' : StrictOn less' (l.map f))
    (heq : ∀ a ∈ l, ∀ b ∈ l, a ≠ b → less' (f a) (f b) = less a b) :
    (s.sort less l).map f = s'.sort less' (l.map f) := by
  refine s'.eq_sort h' ((s.perm less l).map f) (pairwise_map.mpr ?_)
  have hnodup : (s.sort less l).Nodup := (s.perm less l).nodup_iff.mpr h.nodup
  refine (hnodup.and (s.sorted less l h)).imp_of_mem ?_
  rintro a b ha hb ⟨hne, hlt⟩
  rw [heq a ((s.perm less l).subset ha) b ((s.perm less l).subset hb) hne]
  exact hlt

/-! ## Insertion -/

def insert (less : α → α → Bool) (x : α) : List α → List α
  | [] => [x]
  | y :: ys => if less x y then x :: y :: ys else y :: insert less x ys

theorem insert_perm (x : α) : (insert less x l).Perm (x :: l) := by
  induction l with
  | nil => exact .refl _
  | cons y ys ih =>
    rw [insert]
    split
    · exact .refl _
    · exact (ih.cons y).trans (.swap x y ys)

theorem insert_sorted {x : α} (h : StrictOn less (x :: l))
    (hl : l.Pairwise fun a b => less a b = true) :
    (insert less x l).Pairwise fun a b => less a b = true := by
  induction l with
  | nil => exact pairwise_singleton _ _
  | cons y ys ih =>
    obtain ⟨hy, hys⟩ := pairwise_cons.mp hl
    obtain ⟨hx, hrest⟩ := nodup_cons.mp h.nodup
    obtain ⟨hyys, hysnd⟩ := nodup_cons.mp hrest
    have hxmem : x ∈ x :: y :: ys := mem_cons_self
    have hymem : y ∈ x :: y :: ys := mem_cons_of_mem x mem_cons_self
    have hxy : x ≠ y := fun heq => hx (by rw [heq]; exact mem_cons_self)
    rw [insert]
    split
    · rename_i hlt
      refine pairwise_cons.mpr ⟨fun z hz => ?_, hl⟩
      rcases mem_cons.mp hz with rfl | hz
      · exact hlt
      · have hyz : y ≠ z := fun heq => hyys (by rw [heq]; exact hz)
        exact h.trans x hxmem y hymem z (mem_cons_of_mem x (mem_cons_of_mem y hz)) hxy hyz
          hlt (hy z hz)
    · rename_i hlt
      have hyx := (h.total x hxmem y hymem hxy).resolve_left hlt
      have hsub : StrictOn less (x :: ys) :=
        h.of_subset (nodup_cons.mpr ⟨fun hm => hx (mem_cons_of_mem y hm), hysnd⟩)
          (cons_subset_cons x (subset_cons_self y ys))
      refine pairwise_cons.mpr ⟨fun z hz => ?_, ih hsub hys⟩
      rcases mem_cons.mp ((insert_perm x).subset hz) with rfl | hz
      · exact hyx
      · exact hy z hz

/-- Sorting by insertion. -/
def insertion : Sorter α where
  sort less l := l.foldr (insert less) []
  perm less l := by
    induction l with
    | nil => exact List.Perm.refl _
    | cons x xs ih => exact (insert_perm x).trans (ih.cons x)
  sorted less l h := by
    have hboth : (l.foldr (insert less) []).Perm l ∧
        (l.foldr (insert less) []).Pairwise fun a b => less a b = true := by
      induction l with
      | nil => exact ⟨List.Perm.refl _, List.Pairwise.nil⟩
      | cons x xs ih =>
        obtain ⟨hperm, hsorted⟩ :=
          ih (h.of_subset (nodup_cons.mp h.nodup).2 (subset_cons_self x xs))
        exact ⟨(insert_perm x).trans (hperm.cons x),
          insert_sorted (h.of_perm (hperm.cons x)) hsorted⟩
    exact hboth.2

end Sorter

end Dep2p.Lib
