import Dep2p.Lib.Ledger
import Dep2p.Rcmgr.Reserve
import Dep2p.Rcmgr.Skeleton
import Mathlib.Algebra.Order.Group.Int
import Mathlib.Algebra.Order.Pi

/- Spans: trees of scopes under one owner (`scope.go`).

   A reservation or a release on a span goes up the owner chain to the root and its edges,
   and stops at the first closed scope. So an open scope holds what it reserved itself and
   what its open spans hold, and closing a span takes its share out of all its open
   ancestors at once. A closed owner has given everything back, its spans keep their
   counters, and nothing they do gets past it any more.

   What is proved:
     1. `Rooted.total_children`, `Kept.owns_of_moves`: a change along the chain leaves the
        own holdings of every scope but the first as they were.
     2. `Kept.reserveMemory`, `Kept.releaseMemory`, `Kept.beginSpan`, `Kept.doneUnlocked`:
        the calls keep the books of the tree. -/
namespace Dep2p.Rcmgr

open Lib List ResourceScope Store Ledger ScopeId Resources

namespace ScopeId

/-- The node at the end of the owner chain. -/
def root : ScopeId → Nat
  | .node n => n
  | .span owner _ => owner.root

/-- The scope and its owners. -/
def chain : ScopeId → List ScopeId
  | .node n => [.node n]
  | .span owner k => .span owner k :: owner.chain

theorem mem_chain_self (id : ScopeId) : id ∈ id.chain := by
  cases id with
  | node n => exact mem_singleton_self _
  | span owner k => exact mem_cons_self

theorem sizeOf_of_mem_chain {id x : ScopeId} (h : x ∈ id.chain) : sizeOf x ≤ sizeOf id := by
  induction id with
  | node n => rw [mem_singleton.mp h]
  | span owner k ih =>
    rcases mem_cons.mp h with rfl | h
    · exact le_refl _
    · have := ih h
      simp only [span.sizeOf_spec]
      omega

theorem span_notMem_chain (id : ScopeId) (k : Nat) : .span id k ∉ id.chain := by
  intro h
  have := sizeOf_of_mem_chain h
  simp only [span.sizeOf_spec] at this
  omega

end ScopeId

namespace Graph

/-- The scopes a release on `id` comes to: the owner chain up to a closed scope, and the
open edges of the root. -/
def reached (g : Graph) : ScopeId → List ScopeId
  | .node n =>
    if (g (.node n)).done then []
    else .node n :: (g (.node n)).edges.filter fun e => !(g e).done
  | .span owner k =>
    if (g (.span owner k)).done then [] else .span owner k :: g.reached owner

/-- What the open spans of a scope hold together. -/
def spansUsage (g : Graph) (x : ScopeId) : Usage :=
  Ledger.total (g x).spanID fun k =>
    if (g (.span x (k + 1))).done then 0 else (g (.span x (k + 1))).rc.usage

/-- The edges of the root are other nodes, each met once. -/
structure Rooted (n : Nat) (g : Graph) : Prop where
  nodup : (g (.node n)).edges.Nodup
  other : ∀ e ∈ (g (.node n)).edges, ∃ m, m ≠ n ∧ e = .node m

variable {e : ScopeId} {B : Type}

section Reached

variable {n : Nat} {g g' : Graph} {id x y : ScopeId}

theorem reached_congr (hdone : ∀ x, (g' x).done = (g x).done)
    (hedges : ∀ x, (g' x).edges = (g x).edges) : g'.reached id = g.reached id := by
  induction id with
  | node n => simp only [reached, hdone, hedges]
  | span owner k ih => simp only [reached, hdone, ih]

theorem reached_of_done (h : (g id).done = true) : g.reached id = [] := by
  cases id with
  | node n | span owner k => simp only [reached, h, if_true]

theorem mem_reached_self (h : (g id).done = false) : id ∈ g.reached id := by
  cases id with
  | node n | span owner k => simp [reached, h]

theorem open_of_mem_reached (h : x ∈ g.reached id) : (g x).done = false := by
  induction id with
  | node n =>
    simp only [reached] at h
    split at h
    · exact absurd h not_mem_nil
    rename_i hopen
    rcases mem_cons.mp h with rfl | h
    · simpa using hopen
    · simpa using (mem_filter.mp h).2
  | span owner k ih =>
    simp only [reached] at h
    split at h
    · exact absurd h not_mem_nil
    rename_i hopen
    rcases mem_cons.mp h with rfl | h
    · simpa using hopen
    · exact ih h

/-- A scope that is reached is an owner or an edge of the root. -/
theorem mem_reached (h : x ∈ g.reached id) :
    x ∈ id.chain ∨ x ∈ (g (.node id.root)).edges := by
  induction id with
  | node n =>
    simp only [reached] at h
    split at h
    · exact absurd h not_mem_nil
    · rcases mem_cons.mp h with rfl | h
      · exact .inl (mem_singleton_self _)
      · exact .inr (mem_filter.mp h).1
  | span owner k ih =>
    simp only [reached] at h
    split at h
    · exact absurd h not_mem_nil
    · rcases mem_cons.mp h with rfl | h
      · exact .inl mem_cons_self
      · exact (ih h).imp_left (mem_cons_of_mem _)

section

variable (hr : Rooted n g)
include hr

theorem Rooted.span_mem_chain (hid : id.root = n) {k : Nat} (h : .span y k ∈ g.reached id) :
    .span y k ∈ id.chain := by
  rcases mem_reached h with h | h
  · exact h
  · obtain ⟨m, -, heq⟩ := hr.other _ (hid ▸ h)
    cases heq

theorem Rooted.span_notMem_reached (id : ScopeId) (hid : id.root = n) (k : Nat) :
    .span id k ∉ g.reached id :=
  fun h => id.span_notMem_chain k (hr.span_mem_chain hid h)

theorem Rooted.reached_nodup (hid : id.root = n) : (g.reached id).Nodup := by
  induction id with
  | node m =>
    obtain rfl : m = n := hid
    simp only [reached]
    split
    · exact nodup_nil
    · refine nodup_cons.mpr ⟨fun h => ?_, hr.nodup.filter _⟩
      obtain ⟨j, hne, heq⟩ := hr.other _ (mem_filter.mp h).1
      exact hne (node.inj heq).symm
  | span owner k ih =>
    simp only [reached]
    split
    · exact nodup_nil
    · exact nodup_cons.mpr ⟨hr.span_notMem_reached owner hid k, ih hid⟩

/-- An open edge of an open root is reached with the root. -/
theorem Rooted.edge_mem_reached (hid : id.root = n) (he : e ∈ (g (.node n)).edges)
    (hopen : (g e).done = false) : e ∈ g.reached id ↔ .node n ∈ g.reached id := by
  obtain ⟨m, -, rfl⟩ := hr.other e he
  induction id with
  | node j =>
    obtain rfl : j = n := hid
    simp only [reached]
    split
    · simp
    · simp [he, hopen]
  | span owner k ih =>
    simp only [reached]
    split
    · simp
    · simp [ih hid]

/-- On the chain of owners a scope of `y`'s spans stands just below `y`. -/
theorem Rooted.total_children
    (hborn : ∀ o k, o.root = n → (g (.span o k)).done = false → 0 < k ∧ k ≤ (g o).spanID)
    (hid : id.root = n) (hy : y.root = n) (hopen : (g y).done = false) (d : Usage) :
    total (g y).spanID (fun k => if .span y (k + 1) ∈ g.reached id then d else 0) =
      if y ∈ g.reached id ∧ y ≠ id then d else 0 := by
  induction id with
  | node m =>
    obtain rfl : m = n := hid
    have hno : ∀ k, .span y k ∉ g.reached (.node m) := by
      intro k h
      cases mem_singleton.mp (hr.span_mem_chain rfl h)
    rw [total_eq_zero fun k _ => if_neg (hno (k + 1)), if_neg]
    rintro ⟨hmem, hne⟩
    rcases mem_reached hmem with h | h
    · exact hne (mem_singleton.mp h)
    · obtain ⟨j, hj, rfl⟩ := hr.other y h
      exact hj hy
  | span owner k ih =>
    cases hdone : (g (.span owner k)).done with
    | true => simp [reached_of_done hdone, total_eq_zero]
    | false =>
      obtain ⟨hpos, hle⟩ := hborn owner k hid hdone
      have hreached : g.reached (.span owner k) = .span owner k :: g.reached owner := by
        simp [reached, hdone]
      by_cases hyo : y = owner
      · subst hyo
        -- the span itself is the only one of its owner's that is reached
        rw [total_single (j := k - 1) (by omega), if_pos, if_pos]
        · rw [hreached]
          refine ⟨mem_cons_of_mem _ (mem_reached_self hopen), fun heq => ?_⟩
          exact y.span_notMem_chain k (heq ▸ y.mem_chain_self)
        · rw [hreached, Nat.sub_add_cancel hpos]
          exact mem_cons_self
        · intro i _ hne
          refine if_neg fun h => ?_
          rw [hreached] at h
          rcases mem_cons.mp h with heq | h
          · have := (span.inj heq).2
            omega
          · exact hr.span_notMem_reached y hy _ h
      · have hiff : ∀ i, .span y (i + 1) ∈ g.reached (.span owner k) ↔
            .span y (i + 1) ∈ g.reached owner := by
          intro i
          rw [hreached, mem_cons, or_iff_right]
          exact fun heq => hyo (span.inj heq).1
        simp only [hiff]
        rw [ih hid]
        refine if_congr ?_ rfl rfl
        rw [hreached, mem_cons]
        constructor
        · rintro ⟨hmem, -⟩
          exact ⟨.inr hmem, fun heq => hr.span_notMem_reached owner hid k (heq ▸ hmem)⟩
        · rintro ⟨heq | hmem, hne⟩
          · exact absurd heq hne
          · exact ⟨hmem, hyo⟩

end

end Reached

/-! ## Moving an amount along the chain -/

/-- Nothing but counters differs, and the counters of the listed scopes by `d`. -/
structure Moves (g g' : Graph) (visited : List ScopeId) (d : Usage) : Prop where
  done : ∀ x, (g' x).done = (g x).done
  spanID : ∀ x, (g' x).spanID = (g x).spanID
  edges : ∀ x, (g' x).edges = (g x).edges
  use : ∀ x, (g' x).rc.usage = (g x).rc.usage + if x ∈ visited then d else 0

section Moving

variable {n : Nat} {g g' : Graph} {id x y : ScopeId} {d : Usage} {f : Resources → Resources}

theorem modify_rc_keep {π : ResourceScope → B} (hπ : Uncounted π)
    (f : Resources → Resources) (g : Graph) (id x : ScopeId) :
    π (g.modify id (fun s => { s with rc := f s.rc }) x) = π (g x) :=
  modify_keep (fun s => hπ s (f s.rc)) g x

/-- A release visits the scopes it reaches. -/
theorem Rooted.release_eq (hr : Rooted n g) (hid : id.root = n) :
    g.release f id = modifyEach (fun s => { s with rc := f s.rc }) (g.reached id) g := by
  induction id generalizing g with
  | node m =>
    obtain rfl : m = n := hid
    simp only [release, reached]
    split
    · rfl
    rw [modifyEach_cons, forEdges]
    funext x
    rw [modifyEach_of_nodup hr.nodup, modifyEach_of_nodup (hr.nodup.filter _)]
    have hdone := modify_rc_keep uncounted_done f g (.node m) x
    cases hx : (g x).done with
    | true | false => simp [hx, forChild, hdone]
  | span owner k ih =>
    simp only [release, reached]
    split
    · rfl
    have hdone := modify_rc_keep uncounted_done f g (.span owner k)
    have hedges := modify_rc_keep uncounted_edges f g (.span owner k)
    have hr' : Rooted n (g.modify (.span owner k) fun s => { s with rc := f s.rc }) :=
      ⟨(hedges _).symm ▸ hr.nodup, (hedges _).symm ▸ hr.other⟩
    rw [modifyEach_cons, ih hr' hid, reached_congr hdone hedges]

theorem Rooted.release_moves (hr : Rooted n g) (hid : id.root = n)
    (hexact : ∀ x ∈ g.reached id, (f (g x).rc).usage = (g x).rc.usage + d) :
    Moves g (g.release f id) (g.reached id) d where
  done := release_keep uncounted_done f g
  spanID := release_keep uncounted_spanID f g
  edges := release_keep uncounted_edges f g
  use := fun x => by
    rw [hr.release_eq hid, modifyEach_of_nodup (hr.reached_nodup hid)]
    split
    · rename_i hmem
      exact hexact x hmem
    · rw [add_zero]

theorem mem_path_self : id ∈ g.path id := by
  cases id with
  | node n | span owner k => exact mem_cons_self

theorem path_eq_reached (h : ∀ x ∈ g.path id, (g x).done = false) : g.path id = g.reached id := by
  induction id with
  | node n =>
    have hedges : (g (.node n)).edges.filter (fun e => !(g e).done) = (g (.node n)).edges :=
      filter_eq_self.mpr fun e he => by simp [h e (mem_cons_of_mem _ he)]
    simp [path, reached, h _ mem_cons_self, hedges]
  | span owner k ih =>
    have howner := ih fun x hx => h x (mem_cons_of_mem _ hx)
    simp [path, reached, h _ mem_cons_self, howner]

theorem Rooted.path_nodup (hr : Rooted n g) (hid : id.root = n) : (g.path id).Nodup := by
  have hsub : ∀ (id : ScopeId), id.root = n → ∀ x ∈ g.path id,
      x ∈ id.chain ∨ x ∈ (g (.node n)).edges := by
    intro id hid x hx
    induction id with
    | node m =>
      obtain rfl : m = n := hid
      exact (mem_cons.mp hx).imp_left mem_singleton.mpr
    | span owner k ih =>
      rcases mem_cons.mp hx with rfl | hx
      · exact .inl mem_cons_self
      · exact (ih hid hx).imp_left (mem_cons_of_mem _)
  induction id with
  | node m =>
    obtain rfl : m = n := hid
    refine nodup_cons.mpr ⟨fun h => ?_, hr.nodup⟩
    obtain ⟨j, hne, heq⟩ := hr.other _ h
    exact hne (node.inj heq).symm
  | span owner k ih =>
    refine nodup_cons.mpr ⟨fun h => ?_, ih hid⟩
    rcases hsub owner hid _ h with h | h
    · exact owner.span_notMem_chain k h
    · obtain ⟨m, -, heq⟩ := hr.other _ h
      cases heq

/-- A reservation moves what it asks for along the chain, or nothing. -/
theorem Rooted.acquire_moves (hr : Rooted n g) (r : Reservation) (hid : id.root = n)
    (hg : Guarded r id g) :
    ((g id).Admits r ∧ Moves g (acquire r id g).1 (g.reached id) r.usage) ∨
      Moves g (acquire r id g).1 [] r.usage := by
  have hn := hr.path_nodup hid
  have hmoves : ∀ visited, (∀ x, ((acquire r id g).1 x).rc.usage =
      (g x).rc.usage + if x ∈ visited then r.usage else 0) →
        Moves g (acquire r id g).1 visited r.usage := fun visited huse =>
    ⟨acquire_keep uncounted_done r g, acquire_keep uncounted_spanID r g,
      acquire_keep uncounted_edges r g, huse⟩
  rcases forall_or_first (fun x => (g x).Admits r) (g.path id) with
    hall | ⟨pre, x, post, hp, hpre, hx⟩
  · have hopen : ∀ x ∈ g.path id, (g x).done = false :=
      fun x hx => (admits_iff.mp (hall x hx)).1
    refine .inl ⟨hall id mem_path_self, hmoves _ fun x => ?_⟩
    rw [(acquire_charges id g hn).accepts hall]
    dsimp only
    rw [modifyEach_of_nodup hn, path_eq_reached hopen]
    split
    · rename_i hmem
      rw [← path_eq_reached hopen] at hmem
      exact (charged_usage (hall x hmem)).mpr (hg.fits hall x hmem)
    · rw [add_zero]
  · obtain ⟨err, hrun⟩ := (acquire_charges id g hn).refuses pre x post hp hpre hx
    have hnp : pre.Nodup := by
      rw [hp] at hn
      exact hn.of_append_left
    refine .inr (hmoves _ fun y => ?_)
    rw [hrun]
    dsimp only
    rw [modifyEach_of_nodup hnp, if_neg not_mem_nil, add_zero]
    split
    · rename_i hmem
      exact (undone_usage (hpre y hmem)).mpr (hg.undoable pre x post hp hpre hx y hmem)
    · rfl

end Moving

/-! ## The books of a tree -/

/-- The books of the tree under the `n`-th node: an open scope holds at least what its open
spans hold together, and the open edges of an open root at least what the root holds. -/
structure Kept (n : Nat) (g : Graph) : Prop extends Rooted n g where
  owns : ∀ y, y.root = n → (g y).done = false → g.spansUsage y ≤ (g y).rc.usage
  nonneg : ∀ y, y.root = n → 0 ≤ (g y).rc.usage
  born : ∀ o k, o.root = n → (g (.span o k)).done = false → 0 < k ∧ k ≤ (g o).spanID
  unborn : ∀ o k, o.root = n → ¬ (0 < k ∧ k ≤ (g o).spanID) → (g (.span o k)).spanID = 0
  edgeLe : (g (.node n)).done = false → ∀ e ∈ (g (.node n)).edges, (g e).done = false →
    (g (.node n)).rc.usage ≤ (g e).rc.usage

section Books

variable {n : Nat} {g g' : Graph} {id x y : ScopeId} {d : Usage}

theorem Kept.spansUsage_nonneg (h : Kept n g) (hy : y.root = n) : 0 ≤ g.spansUsage y := by
  refine total_nonneg fun k _ => ?_
  split
  · exact le_rfl
  · exact h.nonneg _ hy

/-- No open span holds more than its owner's spans together. -/
theorem Kept.span_le (h : Kept n g) {k : Nat} (hy : y.root = n)
    (hopen : (g (.span y k)).done = false) : (g (.span y k)).rc.usage ≤ g.spansUsage y := by
  obtain ⟨hpos, hle⟩ := h.born y k hy hopen
  have hterm := le_total (n := (g y).spanID) (j := k - 1) (w := fun k =>
    if (g (.span y (k + 1))).done then 0 else (g (.span y (k + 1))).rc.usage) (by omega)
    fun i _ => by
      split
      · exact le_rfl
      · exact h.nonneg _ hy
  rw [Nat.sub_add_cancel hpos, if_neg (by simp [hopen])] at hterm
  exact hterm

/-- What a scope holds, every scope its release comes to holds. -/
theorem Kept.le_of_reached (h : Kept n g) (hid : id.root = n) (hx : x ∈ g.reached id) :
    (g id).rc.usage ≤ (g x).rc.usage := by
  induction id with
  | node m =>
    obtain rfl : m = n := hid
    have hopen := open_of_mem_reached hx
    simp only [reached] at hx
    split at hx
    · exact absurd hx not_mem_nil
    rename_i hroot
    rcases mem_cons.mp hx with rfl | hx
    · exact le_rfl
    · exact h.edgeLe (by simpa using hroot) x (mem_filter.mp hx).1 hopen
  | span owner k ih =>
    simp only [reached] at hx
    split at hx
    · exact absurd hx not_mem_nil
    rename_i hopen
    rcases mem_cons.mp hx with rfl | hx
    · exact le_rfl
    · have howner : (g owner).done = false := by
        cases hdone : (g owner).done with
        | false => rfl
        | true => rw [reached_of_done hdone] at hx; exact absurd hx not_mem_nil
      calc (g (.span owner k)).rc.usage
          ≤ g.spansUsage owner := h.span_le hid (by simpa using hopen)
        _ ≤ (g owner).rc.usage := h.owns owner hid howner
        _ ≤ (g x).rc.usage := ih hid hx

theorem Kept.reached_nonneg (h : Kept n g) (hid : id.root = n) (hx : x ∈ g.reached id) :
    0 ≤ (g x).rc.usage := (h.nonneg id hid).trans (h.le_of_reached hid hx)

variable {visited : List ScopeId}

theorem Moves.spansUsage (h : Moves g g' visited d)
    (hopen : ∀ x ∈ visited, (g x).done = false) :
    g'.spansUsage y = g.spansUsage y +
      total (g y).spanID fun k => if .span y (k + 1) ∈ visited then d else 0 := by
  unfold Graph.spansUsage
  rw [h.spanID]
  refine (total_congr fun k _ => ?_).trans Finset.sum_add_distrib
  rw [h.done, h.use]
  cases hdone : (g (.span y (k + 1))).done with
  | false => simp
  | true =>
    have hno : .span y (k + 1) ∉ visited := by
      intro hmem
      rw [hopen _ hmem] at hdone
      exact absurd hdone (by decide)
    simp [hno]

section

variable (h : Kept n g) (hm : Moves g g' (g.reached id) d) (hid : id.root = n) (hy : y.root = n)
  (hopen : (g y).done = false)
include h hm hid hy hopen

/-- What a change along the chain does to the spans of an open scope. -/
theorem Kept.spansUsage_of_moves :
    g'.spansUsage y = g.spansUsage y + if y ∈ g.reached id ∧ y ≠ id then d else 0 := by
  rw [hm.spansUsage (fun x hx => open_of_mem_reached hx), h.total_children h.born hid hy hopen]

/-- A scope above the one that changes keeps its own holdings. -/
theorem Kept.owns_of_moves (hne : y ≠ id) :
    g'.spansUsage y ≤ (g' y).rc.usage := by
  rw [h.spansUsage_of_moves hm hid hy hopen, hm.use]
  simp only [hne, ne_eq, not_false_eq_true, and_true]
  exact add_le_add_left (h.owns y hy hopen) _

end

theorem Rooted.of_edges (h : Rooted n g) (hedges : ∀ x, (g' x).edges = (g x).edges) :
    Rooted n g' :=
  ⟨(hedges _).symm ▸ h.nodup, (hedges _).symm ▸ h.other⟩

/-- An open root and its open edges change together. -/
theorem Kept.edgeLe_of_moves (h : Kept n g) (hm : Moves g g' (g.reached id) d) (hid : id.root = n)
    (hroot : (g (.node n)).done = false) (he : e ∈ (g (.node n)).edges)
    (hopen : (g e).done = false) : (g' (.node n)).rc.usage ≤ (g' e).rc.usage := by
  rw [hm.use, hm.use]
  simp only [h.edge_mem_reached hid he hopen]
  exact add_le_add_left (h.edgeLe hroot e he hopen) _

/-- A change along the chain that the first scope can bear keeps the books. -/
theorem Kept.moved (h : Kept n g) (hm : Moves g g' (g.reached id) d) (hid : id.root = n)
    (hnn : 0 ≤ (g id).rc.usage + d)
    (hown : (g id).done = false → g.spansUsage id ≤ (g id).rc.usage + d) : Kept n g' where
  toRooted := h.toRooted.of_edges hm.edges
  owns := fun y hy hopen => by
    rw [hm.done] at hopen
    by_cases hne : y = id
    · subst hne
      rw [h.spansUsage_of_moves hm hid hy hopen, hm.use, if_pos (mem_reached_self hopen)]
      simpa using hown hopen
    · exact h.owns_of_moves hm hid hy hopen hne
  nonneg := fun y hy => by
    rw [hm.use]
    split
    · rename_i hmem
      exact hnn.trans (add_le_add_left (h.le_of_reached hid hmem) d)
    · rw [add_zero]
      exact h.nonneg y hy
  born := fun o k ho hopen => by
    rw [hm.done] at hopen
    rw [hm.spanID]
    exact h.born o k ho hopen
  unborn := fun o k ho hk => by
    rw [hm.spanID] at hk ⊢
    exact h.unborn o k ho hk
  edgeLe := fun hroot e he hopen => by
    rw [hm.done] at hroot hopen
    rw [hm.edges] at he
    exact h.edgeLe_of_moves hm hid hroot he hopen

theorem Moves.of_nil (h : Moves g g' [] d) (visited : List ScopeId) : Moves g g' visited 0 :=
  ⟨h.done, h.spanID, h.edges, fun x => by rw [h.use]; simp⟩

/-! ## The calls -/

/-- The part of the path before a refusal is reached. -/
theorem mem_reached_of_path {pre rest : List ScopeId} (hp : g.path id = pre ++ rest)
    (hopen : ∀ y ∈ pre, (g y).done = false) (hx : x ∈ pre) : x ∈ g.reached id := by
  induction id generalizing pre with
  | node n =>
    cases pre with
    | nil => exact absurd hx not_mem_nil
    | cons a pre =>
      obtain ⟨rfl, hedges⟩ := cons.inj hp
      simp only [reached, hopen _ mem_cons_self]
      rcases mem_cons.mp hx with rfl | hmem
      · exact mem_cons_self
      · refine mem_cons_of_mem _ (mem_filter.mpr ⟨?_, by simp [hopen x hx]⟩)
        rw [hedges]
        exact mem_append_left _ hmem
  | span owner k ih =>
    cases pre with
    | nil => exact absurd hx not_mem_nil
    | cons a pre =>
      obtain ⟨rfl, howner⟩ := cons.inj hp
      simp only [reached, hopen _ mem_cons_self]
      rcases mem_cons.mp hx with rfl | hmem
      · exact mem_cons_self
      · exact mem_cons_of_mem _
          (ih howner (fun y hy => hopen y (mem_cons_of_mem _ hy)) hmem)

theorem memoryUsage_nonneg {m : Int} (h : 0 ≤ m) : 0 ≤ memoryUsage m :=
  usage_nonneg_iff.mpr ⟨h, le_rfl, le_rfl, le_rfl, le_rfl, le_rfl⟩

variable {size : Int64} {prio : UInt8}

theorem Kept.guarded (h : Kept n g) (hid : id.root = n)
    (hfit : (∀ x ∈ g.path id, (g x).Admits (.memory size prio)) →
      ∀ x ∈ g.path id, (g x).rc.memory.toInt + size.toInt < 2 ^ 63) :
    Guarded (.memory size prio) id g := by
  refine ⟨hfit, fun pre x post hp hpre _ y hy => ?_⟩
  have hopen : ∀ z ∈ pre, (g z).done = false :=
    fun z hz => (admits_iff.mp (hpre z hz)).1
  exact h.reached_nonneg hid (mem_reached_of_path hp hopen hy) .memory

theorem Kept.unmoved (h : Kept n g) (hm : Moves g g' [] d) : Kept n g' := by
  refine h.moved (hm.of_nil (g.reached (.node n))) rfl ?_ fun hopen => ?_
  · rw [add_zero]
    exact h.nonneg _ rfl
  · rw [add_zero]
    exact h.owns _ rfl hopen

theorem Kept.reserveMemory (h : Kept n g) (hid : id.root = n)
    (hfit : (∀ x ∈ g.path id, (g x).Admits (.memory size prio)) →
      ∀ x ∈ g.path id, (g x).rc.memory.toInt + size.toInt < 2 ^ 63) :
    Kept n (g.reserveMemory id size prio).1 := by
  rcases h.acquire_moves (.memory size prio) hid (h.guarded hid hfit) with ⟨hadm, hm⟩ | hm
  · obtain ⟨-, rc, htake⟩ := admits_iff.mp hadm
    have hsize := memoryUsage_nonneg
      (checkMemory_none (reserveMemory_ok htake).1)
    exact h.moved hm hid (add_nonneg (h.nonneg id hid) hsize)
      fun hopen => le_add_of_le_of_nonneg (h.owns id hid hopen) hsize
  · exact h.unmoved hm

/-- The scope releases at most what it holds beyond its spans. -/
theorem Kept.releaseMemory (h : Kept n g) (hid : id.root = n)
    (hown : (g id).done = false → size.toInt ≤ ((g id).rc.usage - g.spansUsage id) .memory)
    (hrange : ∀ x ∈ g.reached id, (g x).rc.memory.toInt - size.toInt < 2 ^ 63) :
    Kept n (g.releaseMemory id size) := by
  cases hdone : (g id).done with
  | true =>
    have hsame : g.releaseMemory id size = g := by
      rw [Graph.releaseMemory, h.release_eq hid, reached_of_done hdone, modifyEach_nil]
    rw [hsame]
    exact h
  | false =>
    have hspans := h.spansUsage_nonneg hid .memory
    have hle := hown hdone
    rw [Pi.sub_apply] at hle
    have hown' : g.spansUsage id ≤ (g id).rc.usage + memoryUsage (-size.toInt) := by
      intro c
      have := h.owns id hid hdone c
      cases c with
      | memory => simp only [Pi.add_apply, memoryUsage]; omega
      | _ => simpa [memoryUsage] using this
    refine h.moved (h.release_moves hid fun x hx => ?_) hid
      ((h.spansUsage_nonneg hid).trans hown') fun _ => hown'
    refine releaseMemory_usage ?_ (hrange x hx)
    have hup : (g id).rc.usage .memory ≤ (g x).rc.usage .memory := h.le_of_reached hid hx .memory
    change size.toInt ≤ (g x).rc.usage .memory
    change 0 ≤ g.spansUsage id .memory at hspans
    omega

/-- The next span of a scope. -/
def nextSpan (g : Graph) (id : ScopeId) : ScopeId := .span id ((g id).spanID + 1)

theorem beginSpan_apply (hopen : (g id).done = false) :
    (g.beginSpan id).1 x =
      if x = g.nextSpan id then
        { rc := { limit := (g id).rc.limit }, name := .span (g id).name ((g id).spanID + 1) }
      else if x = id then
        { g id with refCnt := (g id).refCnt + 1, spanID := (g id).spanID + 1 }
      else g x := by
  unfold beginSpan
  simp [hopen, Function.update_apply, modify_apply, nextSpan]

/-- Beginning a span changes nothing of another scope that its own count does not say. -/
theorem beginSpan_keep {π : ResourceScope → B}
    (hπ : ∀ (s : ResourceScope) (r : Int) (k : Nat), π { s with refCnt := r, spanID := k } = π s)
    (hopen : (g id).done = false) (hx : x ≠ g.nextSpan id) :
    π ((g.beginSpan id).1 x) = π (g x) := by
  rw [beginSpan_apply hopen, if_neg hx]
  split
  · rename_i heq
    rw [heq]
    exact hπ _ _ _
  · rfl

theorem beginSpan_nextSpan (hopen : (g id).done = false) :
    ((g.beginSpan id).1 (g.nextSpan id)).rc.usage = 0 := by
  rw [beginSpan_apply hopen, if_pos rfl]
  exact usage_zero (g id).rc

theorem ne_nextSpan (g : Graph) : id ≠ g.nextSpan id := by
  intro heq
  have := congrArg sizeOf heq
  simp only [nextSpan, span.sizeOf_spec] at this
  omega

section

variable (h : Kept n g) (hid : id.root = n)
include h hid

theorem Kept.nextSpan_spanID :
    (g (g.nextSpan id)).spanID = 0 :=
  h.unborn id _ hid (by omega)

theorem Kept.beginSpan_spanID (hopen : (g id).done = false)
    : ((g.beginSpan id).1 x).spanID =
      if x = id then (g id).spanID + 1 else (g x).spanID := by
  rw [beginSpan_apply hopen]
  by_cases hx : x = g.nextSpan id
  · rw [if_pos hx, if_neg (fun heq => g.ne_nextSpan (heq.symm.trans hx)), hx,
      h.nextSpan_spanID hid]
  · rw [if_neg hx]
    split <;> rfl

/-- The spans of every scope hold what they held, and the new one nothing. -/
theorem Kept.beginSpan_spansUsage (hopen : (g id).done = false)
    : (g.beginSpan id).1.spansUsage y = g.spansUsage y := by
  have hterm : ∀ k, span y (k + 1) ≠ g.nextSpan id →
      (if ((g.beginSpan id).1 (.span y (k + 1))).done then 0
        else ((g.beginSpan id).1 (.span y (k + 1))).rc.usage) =
      if (g (.span y (k + 1))).done then 0 else (g (.span y (k + 1))).rc.usage := by
    intro k hne
    rw [beginSpan_keep (π := done) (fun _ _ _ => rfl) hopen hne,
      beginSpan_keep (π := rc) (fun _ _ _ => rfl) hopen hne]
  unfold spansUsage
  rw [h.beginSpan_spanID hid hopen]
  split
  · rename_i heq
    subst heq
    have hnew : ((g.beginSpan y).1 (.span y ((g y).spanID + 1))).rc.usage = 0 :=
      beginSpan_nextSpan hopen
    rw [total_succ, hnew, ite_self, add_zero]
    refine total_congr fun k hk => hterm k fun heq => ?_
    have := (span.inj heq).2
    omega
  · rename_i hne
    exact total_congr fun k _ => hterm k fun heq => hne (span.inj heq).1

/-- A span begins with nothing. -/
theorem Kept.beginSpan : Kept n (g.beginSpan id).1 := by
  cases hopen : (g id).done with
  | true =>
    unfold Graph.beginSpan
    rw [if_pos hopen]
    exact h
  | false =>
    have hdone : ∀ x, x ≠ g.nextSpan id → ((g.beginSpan id).1 x).done = (g x).done :=
      fun x hx => beginSpan_keep (fun _ _ _ => rfl) hopen hx
    have huse : ∀ x, x ≠ g.nextSpan id → ((g.beginSpan id).1 x).rc.usage = (g x).rc.usage :=
      fun x hx => congrArg _ (beginSpan_keep (fun _ _ _ => rfl) hopen hx)
    have hedges : ((g.beginSpan id).1 (.node n)).edges = (g (.node n)).edges :=
      beginSpan_keep (fun _ _ _ => rfl) hopen (by simp [nextSpan])
    have hmono : ∀ o, (g o).spanID ≤ ((g.beginSpan id).1 o).spanID := by
      intro o
      rw [h.beginSpan_spanID hid hopen]
      split
      · rename_i heq
        rw [heq]
        exact Nat.le_succ _
      · exact le_refl _
    refine ⟨⟨hedges ▸ h.nodup, hedges ▸ h.other⟩, fun y hy hy' => ?_, fun y hy => ?_,
      fun o k ho hk => ?_, fun o k ho hk => ?_, fun hroot e he hopen' => ?_⟩
    · rw [h.beginSpan_spansUsage hid hopen]
      by_cases hyc : y = g.nextSpan id
      · rw [hyc, beginSpan_nextSpan hopen, spansUsage, h.nextSpan_spanID hid]
        exact le_rfl
      · rw [huse y hyc]
        exact h.owns y hy (hdone y hyc ▸ hy')
    · by_cases hyc : y = g.nextSpan id
      · rw [hyc, beginSpan_nextSpan hopen]
      · rw [huse y hyc]
        exact h.nonneg y hy
    · by_cases hc : span o k = g.nextSpan id
      · obtain ⟨rfl, rfl⟩ := span.inj hc
        rw [h.beginSpan_spanID hid hopen, if_pos rfl]
        omega
      · have hborn := h.born o k ho (hdone _ hc ▸ hk)
        exact ⟨hborn.1, hborn.2.trans (hmono o)⟩
    · have hold : ¬ (0 < k ∧ k ≤ (g o).spanID) := fun hk' => hk ⟨hk'.1, hk'.2.trans (hmono o)⟩
      rw [h.beginSpan_spanID hid hopen, if_neg]
      · exact h.unborn o k ho hold
      · -- the scope itself is open, so its owner counts it
        rintro heq
        exact hold (h.born o k ho (heq ▸ hopen))
    · obtain ⟨m, -, rfl⟩ := h.other e (hedges ▸ he)
      rw [huse _ (by simp [nextSpan]), huse _ (by simp [nextSpan])]
      rw [hdone _ (by simp [nextSpan])] at hroot hopen'
      exact h.edgeLe hroot _ (hedges ▸ he) hopen'

end

/-! ### Closing -/

/-- The scopes above `id` that get the stat of `id` back when it closes. -/
def above (g : Graph) : ScopeId → List ScopeId
  | .node n => (g (.node n)).edges.filter fun e => !(g e).done
  | .span owner _ => g.reached owner

theorem reached_eq_cons (h : (g id).done = false) : g.reached id = id :: g.above id := by
  cases id with
  | node n | span owner k => simp [reached, above, h]

theorem Kept.above_le (h : Kept n g) (hid : id.root = n) (hopen : (g id).done = false)
    (hx : x ∈ g.above id) : (g id).rc.usage ≤ (g x).rc.usage :=
  h.le_of_reached hid (by rw [reached_eq_cons hopen]; exact mem_cons_of_mem _ hx)

/-- Every scope above has what it is given back. -/
theorem Kept.release_above (h : Kept n g) (hid : id.root = n) (hopen : (g id).done = false)
    (hx : x ∈ g.above id) :
    ((g x).rc.release (g id).rc.stat).usage = (g x).rc.usage + -(g id).rc.usage := by
  exact release_usage (h.nonneg id hid .memory) (h.above_le hid hopen hx)

theorem Moves.decRef (h : Moves g g' visited d) :
    Moves g (g'.modify id (·.decRef)) visited d where
  done := fun x => (modify_keep (f := .decRef) (fun _ => rfl) g' x).trans (h.done x)
  spanID := fun x =>
    (modify_keep (f := .decRef) (fun _ => rfl) g' x).trans (h.spanID x)
  edges := fun x => (modify_keep (f := .decRef) (fun _ => rfl) g' x).trans (h.edges x)
  use := fun x =>
    (congrArg usage
      (modify_keep (f := .decRef) (fun _ => rfl) g' x)).trans (h.use x)

theorem Kept.detach_moves (h : Kept n g) (hid : id.root = n) (hopen : (g id).done = false) :
    Moves g (g.detach (g id).rc.stat id) (g.above id) (-(g id).rc.usage) := by
  cases id with
  | node m =>
    obtain rfl : m = n := hid
    refine ⟨detach_keep uncounted_done (fun _ => rfl) g _ _,
      detach_keep uncounted_spanID (fun _ => rfl) g _ _,
      detach_keep uncounted_edges (fun _ => rfl) g _ _, fun x => ?_⟩
    rw [detach, modifyEach_of_nodup h.nodup]
    by_cases hx : x ∈ g.above (.node m)
    · obtain ⟨hmem, hx'⟩ := mem_filter.mp hx
      rw [if_pos hmem, if_pos hx, ← h.release_above rfl hopen hx]
      have hx'' : (g x).done = false := by simpa using hx'
      simp [decRef, releaseForChild, forChild, hx'']
    · rw [if_neg hx, add_zero]
      split
      · rename_i hmem
        have hx' : (g x).done = true := by simpa [above, hmem] using hx
        simp [decRef, releaseForChild, forChild, hx']
      · rfl
  | span owner k =>
    have hm : Moves g (g.releaseResources owner (g (.span owner k)).rc.stat) (g.reached owner)
        (-(g (.span owner k)).rc.usage) :=
      h.release_moves hid fun x hx => h.release_above hid hopen hx
    exact hm.decRef

/-- The graph just before a scope that closes is marked. -/
def emptied (g : Graph) (id : ScopeId) : Graph :=
  (g.detach (g id).rc.stat id).modify id fun s => { s with rc := s.rc.zero }

/-- A scope that closes gives back what it holds, along the chain from itself on. -/
theorem Kept.emptied_moves (h : Kept n g) (hid : id.root = n) (hopen : (g id).done = false) :
    Moves g (g.emptied id) (g.reached id) (-(g id).rc.usage) := by
  have hm := h.detach_moves hid hopen
  refine ⟨fun x => ?_, fun x => ?_, fun x => ?_, fun x => ?_⟩
  · exact (modify_rc_keep uncounted_done _ _ id x).trans (hm.done x)
  · exact (modify_rc_keep uncounted_spanID _ _ id x).trans (hm.spanID x)
  · exact (modify_rc_keep uncounted_edges _ _ id x).trans (hm.edges x)
  · rw [reached_eq_cons hopen, emptied, modify_apply]
    by_cases hx : x = id
    · subst hx
      rw [if_pos rfl, if_pos mem_cons_self, add_neg_cancel]
      exact usage_zero _
    · rw [if_neg hx, hm.use]
      simp [hx]

theorem doneUnlocked_eq (hopen : (g id).done = false) :
    g.doneUnlocked id = (g.emptied id).modify id fun s => { s with done := true } := by
  unfold doneUnlocked emptied
  rw [if_neg (by simp [hopen])]
  funext x
  simp only [modify_apply]
  split <;> rfl

theorem doneUnlocked_rc (hopen : (g id).done = false) :
    (g.doneUnlocked id x).rc = (g.emptied id x).rc := by
  rw [doneUnlocked_eq hopen]
  exact modify_keep (f := fun s => { s with done := true }) (fun _ => rfl) _ x

theorem Kept.doneUnlocked_done (h : Kept n g) (hid : id.root = n) (hopen : (g id).done = false)
    (x : ScopeId) : (g.doneUnlocked id x).done = if x = id then true else (g x).done := by
  rw [doneUnlocked_eq hopen, modify_apply]
  split
  · rfl
  · exact (h.emptied_moves hid hopen).done x

/-- An open span that holds nothing counts as much as a closed one. -/
theorem Kept.doneUnlocked_spansUsage (h : Kept n g) (hid : id.root = n) (hopen : (g id).done = false)
    : (g.doneUnlocked id).spansUsage y = (g.emptied id).spansUsage y := by
  have hm := h.emptied_moves hid hopen
  have hspanID := doneUnlocked_keep uncounted_spanID (fun _ => rfl) (fun _ => rfl) g id y
  have hzero : (g.emptied id id).rc.usage = 0 := by
    rw [hm.use, if_pos (mem_reached_self hopen), add_neg_cancel]
  unfold spansUsage
  rw [hspanID, hm.spanID]
  refine total_congr fun k _ => ?_
  rw [doneUnlocked_rc hopen, h.doneUnlocked_done hid hopen, hm.done]
  by_cases heq : span y (k + 1) = id
  · rw [heq, hzero, ite_self, ite_self]
  · rw [if_neg heq]

theorem Kept.doneUnlocked (h : Kept n g) (hid : id.root = n) : Kept n (g.doneUnlocked id) := by
  cases hopen : (g id).done with
  | true =>
    unfold Graph.doneUnlocked
    rw [if_pos hopen]
    exact h
  | false =>
    have hm := h.emptied_moves hid hopen
    have hdone := h.doneUnlocked_done hid hopen
    have hspanID := doneUnlocked_keep uncounted_spanID (fun _ => rfl) (fun _ => rfl) g id
    have hedges := doneUnlocked_keep uncounted_edges (fun _ => rfl) (fun _ => rfl) g id
    have hopen' : ∀ x, (g.doneUnlocked id x).done = false → (g x).done = false ∧ x ≠ id := by
      intro x hx
      rw [hdone] at hx
      split at hx
      · exact absurd hx (by decide)
      · rename_i hne
        exact ⟨hx, hne⟩
    refine ⟨h.toRooted.of_edges hedges, fun y hy hy' => ?_, fun y hy => ?_, fun o k ho hk => ?_,
      fun o k ho hk => ?_, fun hroot e he he' => ?_⟩
    · obtain ⟨hy', hne⟩ := hopen' y hy'
      rw [h.doneUnlocked_spansUsage hid hopen, doneUnlocked_rc hopen]
      exact h.owns_of_moves hm hid hy hy' hne
    · rw [doneUnlocked_rc hopen, hm.use]
      split
      · rename_i hmem
        exact sub_nonneg_of_le (h.le_of_reached hid hmem)
      · rw [add_zero]
        exact h.nonneg y hy
    · rw [hspanID]
      exact h.born o k ho (hopen' _ hk).1
    · rw [hspanID] at hk ⊢
      exact h.unborn o k ho hk
    · rw [hedges] at he
      rw [doneUnlocked_rc hopen, doneUnlocked_rc hopen]
      exact h.edgeLe_of_moves hm hid (hopen' _ hroot).1 he (hopen' _ he').1

end Books

end Graph

end Dep2p.Rcmgr
