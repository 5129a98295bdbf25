import Dep2p.Lib.Table

/- One table spread over several.

   A route sends a key to one of several rows and to a key in that row. `Spread` says that
   the rows hold what the single table holds: each key where its route leads, and nothing
   else in any row. Writes at routed keys, and whole tables of writes that are spread in the
   same way, keep it. -/
namespace Dep2p.Lib

open Option

variable {K M R V O : Type} [DecidableEq K] [DecidableEq M] [DecidableEq R]

namespace Table

/-- A row that is not there is empty. -/
def row (n : Table M (Table R V)) (m : M) : Table R V := (n.get m).getD ⟨[]⟩

def updateRow (n : Table M (Table R V)) (m : M) (f : Table R V → Table R V) : Table M (Table R V) :=
  n.set m (f (n.row m))

omit [DecidableEq R] in
theorem row_updateRow (n : Table M (Table R V)) (m m' : M) (f : Table R V → Table R V) :
    (n.updateRow m f).row m' = if m' = m then f (n.row m) else n.row m' := by
  unfold updateRow row
  rw [get_set]
  split <;> rfl

theorem get_row_set (n : Table M (Table R V)) (m m' : M) (r r' : R) (v : V) :
    ((n.updateRow m (·.set r v)).row m').get r' =
      if m' = m ∧ r' = r then some v else (n.row m').get r' := by
  rw [row_updateRow]
  by_cases hm : m' = m
  · rw [if_pos hm, get_set, hm]
    simp
  · rw [if_neg hm, if_neg fun h => hm h.1]

theorem get_row_erase (n : Table M (Table R V)) (m m' : M) (r r' : R) :
    ((n.updateRow m (·.erase r)).row m').get r' =
      if m' = m ∧ r' = r then none else (n.row m').get r' := by
  rw [row_updateRow]
  by_cases hm : m' = m
  · rw [if_pos hm, get_erase, hm]
    simp
  · rw [if_neg hm, if_neg fun h => hm h.1]

end Table

/-- The rows of `n` hold `t`, each key that is allowed where its route leads. -/
structure Spread (route : K → Option (M × R)) (allowed : K → Prop) (n : Table M (Table R V))
    (t : Table K V) : Prop where
  get : ∀ k, allowed k → t.get k = (route k).bind fun mr => (n.row mr.1).get mr.2
  domain : ∀ k v, t.get k = some v → allowed k
  routed : ∀ m r v, (n.row m).get r = some v → ∃ k, allowed k ∧ route k = some (m, r)

namespace Spread

variable {route : K → Option (M × R)} {allowed : K → Prop} {n n' : Table M (Table R V)}
  {t t' : Table K V}

theorem empty : Spread route allowed (⟨[]⟩ : Table M (Table R V)) (⟨[]⟩ : Table K V) where
  get k _ := by
    cases route k <;> rfl
  domain _ _ h := by cases h
  routed _ _ _ h := by cases h

/-- What is in a row is in the table. -/
theorem get_of_row (h : Spread route allowed n t) {m : M} {r : R} {v : V}
    (hv : (n.row m).get r = some v) :
    ∃ k, allowed k ∧ route k = some (m, r) ∧ t.get k = some v := by
  obtain ⟨k, hk, hroute⟩ := h.routed m r v hv
  refine ⟨k, hk, hroute, ?_⟩
  rw [h.get k hk, hroute]
  exact hv

/-- A key without a route holds nothing. -/
theorem get_eq_none (h : Spread route allowed n t) {k : K} (hroute : route k = none) :
    t.get k = none := by
  rw [Option.eq_none_iff_forall_not_mem]
  intro v hv
  rw [Option.mem_def, h.get k (h.domain k v hv), hroute] at hv
  cases hv

/-- What is in the table is in a row. -/
theorem row_of_get (h : Spread route allowed n t) {k : K} {v : V} (hv : t.get k = some v) :
    allowed k ∧ ∃ m r, route k = some (m, r) ∧ (n.row m).get r = some v := by
  have hk := h.domain k v hv
  rw [h.get k hk, bind_eq_some_iff] at hv
  obtain ⟨⟨m, r⟩, hroute, hrow⟩ := hv
  exact ⟨hk, m, r, hroute, hrow⟩

section Writes

variable (hinj : ∀ k k' mr, allowed k → allowed k' → route k = some mr → route k' = some mr → k = k')
include hinj

/-- A write of `w`, or of nothing, at a routed key. -/
theorem write (h : Spread route allowed n t) {k : K} (hk : allowed k) {m : M} {r : R}
    (hroute : route k = some (m, r)) {w : Option V}
    (hn : ∀ m' r', (n'.row m').get r' = if m' = m ∧ r' = r then w else (n.row m').get r')
    (ht : ∀ k', t'.get k' = if k' = k then w else t.get k') : Spread route allowed n' t' where
  get k' hk' := by
    rw [ht]
    split
    · rename_i heq
      rw [heq, hroute, bind_some, hn, if_pos ⟨rfl, rfl⟩]
    · rename_i hne
      rw [h.get k' hk']
      cases hr : route k' with
      | none => rfl
      | some mr =>
        rw [bind_some, bind_some, hn, if_neg]
        rintro ⟨hm, hr'⟩
        have hmr : mr = (m, r) := Prod.ext hm hr'
        rw [hmr] at hr
        exact hne (hinj k' k (m, r) hk' hk hr hroute)
  domain k' v hv := by
    rw [ht] at hv
    split at hv
    · rename_i heq
      rw [heq]
      exact hk
    · exact h.domain k' v hv
  routed m' r' v hv := by
    rw [hn] at hv
    split at hv
    · rename_i heq
      rw [heq.1, heq.2]
      exact ⟨k, hk, hroute⟩
    · exact h.routed m' r' v hv

end Writes

/-- A table of writes that is spread itself. -/
theorem overlay {b : Table M (Table R O)} {o : Table K O} (result : O → Option V)
    (h : Spread route allowed n t) (hb : Spread route allowed b o)
    (hn : ∀ m r, (n'.row m).get r = ((b.row m).get r).elim ((n.row m).get r) result)
    (ht : ∀ k, t'.get k = (o.get k).elim (t.get k) result) : Spread route allowed n' t' where
  get k hk := by
    rw [ht, h.get k hk, hb.get k hk]
    cases hr : route k with
    | none => rfl
    | some mr => rw [bind_some, bind_some, bind_some, hn]
  domain k v hv := by
    rw [ht] at hv
    cases ho : o.get k with
    | none =>
      rw [ho] at hv
      exact h.domain k v hv
    | some op => exact hb.domain k op ho
  routed m r v hv := by
    rw [hn] at hv
    cases ho : (b.row m).get r with
    | none =>
      rw [ho] at hv
      exact h.routed m r v hv
    | some op => exact hb.routed m r op ho

end Spread

end Dep2p.Lib
