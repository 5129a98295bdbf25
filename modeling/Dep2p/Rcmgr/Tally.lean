import Mathlib.Algebra.Order.Pi
import Dep2p.Rcmgr.Collect
import Dep2p.Rcmgr.Reserve

/- What connections and streams hold of a shared scope.

   `use` is the vector of counters of a scope and `holdings S` the sum of those
   of the open connections and streams attached to `S`. Looking scopes up and
   charging shared scopes leaves the holdings alone (`Kept`); they change when a
   connection or stream is charged, moves to other edges, or is closed. -/
namespace Dep2p.Rcmgr

open Lib Ledger

variable {n : Nat} {x S : ScopeId} {st : ScopeStat}

variable (id : ScopeId)

namespace Manager

/-- The counters of a scope. -/
def use (σ : Manager) (x : ScopeId) : Usage := (σ.scopes x).rc.usage

/-- What the `n`-th scope holds of `S`: its own counters, if it is an open
connection or stream attached to `S`. -/
def held (σ : Manager) (S : ScopeId) (n : Nat) : Usage :=
  if (σ.scopes (.node n)).done = false ∧ σ.closable (.node n) = true then
    (σ.scopes (.node n)).edges.count S • σ.use (.node n)
  else 0

def holdings (σ : Manager) (S : ScopeId) : Usage := Ledger.total σ.next (σ.held S)

/-- The memory of the `n`-th scope, if it is an open connection or stream. -/
def ownMemory (σ : Manager) (n : Nat) : Int :=
  if (σ.scopes (.node n)).done = false ∧ σ.closable (.node n) = true then
    σ.use (.node n) .memory
  else 0

/-- The memory connections and streams have reserved. -/
def totalMemory (σ : Manager) : Int := Ledger.total σ.next σ.ownMemory

/-! ## Steps that leave the holdings alone -/

/-- The node is as it was, and so are its counters if it is a connection or stream. -/
structure KeptNode (σ τ : Manager) (n : Nat) : Prop where
  done : (τ.scopes (.node n)).done = (σ.scopes (.node n)).done
  edges : (τ.scopes (.node n)).edges = (σ.scopes (.node n)).edges
  conn : (τ.conns (.node n)).isSome = (σ.conns (.node n)).isSome
  stream : (τ.streams (.node n)).isSome = (σ.streams (.node n)).isSome
  use : σ.closable (.node n) = true → τ.use (.node n) = σ.use (.node n)

/-- Connections and streams are as they were; new ones hold nothing. -/
structure Kept (σ τ : Manager) : Prop where
  next : σ.next ≤ τ.next
  old : ∀ n, n < σ.next → KeptNode σ τ n
  new : ∀ n, σ.next ≤ n → n < τ.next → τ.closable (.node n) = true → τ.use (.node n) = 0

section kept

variable {σ τ ρ : Manager}

theorem Kept.refl (σ : Manager) : σ.Kept σ :=
  ⟨le_refl _, fun _ _ => ⟨rfl, rfl, rfl, rfl, fun _ => rfl⟩, fun _ h h' => by omega⟩

theorem KeptNode.closable (h : KeptNode σ τ n) :
    τ.closable (.node n) = σ.closable (.node n) := by
  simp [Manager.closable, h.conn, h.stream]

theorem KeptNode.trans (h : KeptNode σ τ n) (h' : KeptNode τ ρ n) : KeptNode σ ρ n where
  done := h'.done.trans h.done
  edges := h'.edges.trans h.edges
  conn := h'.conn.trans h.conn
  stream := h'.stream.trans h.stream
  use hc := (h'.use (h.closable.trans hc)).trans (h.use hc)

theorem Kept.trans (h : σ.Kept τ) (h' : τ.Kept ρ) : σ.Kept ρ where
  next := h.next.trans h'.next
  old n hn := (h.old n hn).trans (h'.old n (lt_of_lt_of_le hn h.next))
  new n hge hlt hc := by
    by_cases hn : n < τ.next
    · have hk := h'.old n hn
      have hc' : τ.closable (.node n) = true := hk.closable ▸ hc
      rw [hk.use hc', h.new n hge hn hc']
    · exact h'.new n (Nat.le_of_not_lt hn) hlt hc

theorem KeptNode.held (h : KeptNode σ τ n) (S : ScopeId) : τ.held S n = σ.held S n := by
  simp only [Manager.held, h.done, h.edges, h.closable]
  split
  · rename_i hc; rw [h.use hc.2]
  · rfl

theorem KeptNode.ownMemory (h : KeptNode σ τ n) : τ.ownMemory n = σ.ownMemory n := by
  simp only [Manager.ownMemory, h.done, h.closable]
  split
  · rename_i hc; rw [h.use hc.2]
  · rfl

theorem Kept.holdings (h : σ.Kept τ) (S : ScopeId) : τ.holdings S = σ.holdings S := by
  refine total_extend h.next (fun n hn => (h.old n hn).held S) fun n hge hlt => ?_
  simp only [held]
  split
  · rename_i hc; rw [h.new n hge hlt hc.2, nsmul_zero]
  · rfl

theorem Kept.totalMemory (h : σ.Kept τ) : τ.totalMemory = σ.totalMemory := by
  refine total_extend h.next (fun n hn => (h.old n hn).ownMemory) fun n hge hlt => ?_
  simp only [ownMemory]
  split
  · rename_i hc; rw [h.new n hge hlt hc.2]; rfl
  · rfl

/-- A step that keeps the skeleton, the marks and what connections and streams use. -/
theorem kept_of_skel (hskel : τ.skel = σ.skel) (hmarks : τ.marks = σ.marks)
    (huse : ∀ n, σ.closable (.node n) = true → τ.use (.node n) = σ.use (.node n)) : σ.Kept τ where
  next := (congrArg Skeleton.next hskel).ge
  old n _ := by
    have hconns : τ.conns = σ.conns := congrArg Skeleton.conns hskel
    have hstreams : τ.streams = σ.streams := congrArg Skeleton.streams hskel
    exact ⟨congrArg Prod.fst (congrFun hmarks _), congrFun (congrArg Skeleton.edges hskel) n,
      by rw [hconns], by rw [hstreams], huse n⟩
  new n hge hlt := by
    have hnext : τ.next = σ.next := congrArg Skeleton.next hskel
    omega

end kept

/-! ## What the steps do to the counters -/

/-- `u` at `x` and nothing elsewhere. -/
def share (x : ScopeId) (u : Usage) : ScopeId → Usage := fun S => if S = x then u else 0

section use

variable {σ τ : Manager}

theorem use_modify (f : ResourceScope → ResourceScope) :
    (σ.modify id f).use x = if x = id then (f (σ.scopes id)).rc.usage else σ.use x := by
  simp only [use, modify, Store.modify_apply]
  split <;> rfl

@[simp] theorem use_incRef (x : ScopeId) : (σ.incRef id).use x = σ.use x := by
  simp only [incRef, use_modify]
  split
  · rename_i h; rw [h]; rfl
  · rfl

@[simp] theorem use_decRef (x : ScopeId) : (σ.decRef id).use x = σ.use x := by
  simp only [decRef, use_modify]
  split
  · rename_i h; rw [h]; rfl
  · rfl

@[simp] theorem use_setEdges (edges : List ScopeId) :
    (σ.setEdges id edges).use x = σ.use x := by
  simp only [setEdges, use_modify]
  split
  · rename_i h; rw [h]; rfl
  · rfl

/-- A stat fits on top of the memory of a scope. -/
def Room (σ : Manager) (x : ScopeId) (st : ScopeStat) : Prop :=
  0 ≤ σ.use x .memory ∧ 0 ≤ st.usage .memory ∧ σ.use x .memory + st.usage .memory < 2 ^ 63

theorem use_reserveForChild_ok
    (h : σ.reserveForChild x st = (τ, none)) (hroom : σ.Room x st) :
    τ.use S = σ.use S + share x st.usage S := by
  obtain ⟨h₀, h₁, hlt⟩ := hroom
  have hτ : τ = σ.modify x fun s => (s.reserveForChild st).1 := (congrArg Prod.fst h).symm
  have hok : ((σ.scopes x).reserveForChild st).2 = none := congrArg Prod.snd h
  simp only [share]
  rw [hτ, use_modify]
  split
  · rename_i hS
    subst hS
    simp only [ResourceScope.reserveForChild] at hok ⊢
    split at hok
    · cases hok
    rename_i hd
    rw [if_neg hd]
    split at hok
    · cases hok
    · rename_i rc hrc
      exact Resources.reserve_ok_usage hrc hlt h₀ h₁
  · rw [add_zero]

theorem use_reserveForChild_err {err : RcErr} (h : σ.reserveForChild x st = (τ, some err))
    (hn : (σ.scopes x).done = false → 0 ≤ σ.use x) : τ.use S = σ.use S := by
  have hτ : τ = σ.modify x fun s => (s.reserveForChild st).1 := (congrArg Prod.fst h).symm
  have herr : ((σ.scopes x).reserveForChild st).2 = some err := congrArg Prod.snd h
  rw [hτ, use_modify]
  split
  · rename_i hS
    subst hS
    simp only [ResourceScope.reserveForChild] at herr ⊢
    split at herr
    · rename_i hd; rw [if_pos hd]; rfl
    · rename_i hd
      rw [if_neg hd]
      split at herr
      · rename_i rc e hrc
        rw [Resources.reserve_err (hn (by simpa using hd)) hrc]
        rfl
      · cases herr
  · rfl

/-- Giving a stat back to an open scope that holds it. -/
theorem use_releaseForChild (hlive : (σ.scopes x).done = false)
    (h₀ : 0 ≤ st.usage .memory) (hle : st.usage ≤ σ.use x) :
    (σ.releaseForChild x st).use S = σ.use S - share x st.usage S := by
  simp only [share, releaseForChild, use_modify]
  split
  · rename_i hS
    subst hS
    simp only [ResourceScope.releaseForChild, ResourceScope.forChild, hlive]
    exact Resources.release_usage h₀ hle
  · rw [sub_zero]

/-- Charging a scope that is neither a connection nor a stream. -/
theorem kept_reserveForChild {err : Option RcErr}
    (hx : σ.closable x = false) (h : σ.reserveForChild x st = (τ, err)) : σ.Kept τ := by
  have hq := quiet_reserveForChild h
  refine kept_of_skel hq.skel hq.marks fun n hn => ?_
  have hne : .node n ≠ x := by rintro rfl; rw [hx] at hn; cases hn
  have hτ : τ = σ.modify x fun s => (s.reserveForChild st).1 := (congrArg Prod.fst h).symm
  rw [hτ, use_modify, if_neg hne]

theorem kept_releaseForChild (hx : σ.closable x = false) :
    σ.Kept (σ.releaseForChild x st) := by
  refine kept_of_skel (skel_releaseForChild σ) (marks_releaseForChild σ) fun n hn => ?_
  have hne : .node n ≠ x := by rintro rfl; rw [hx] at hn; cases hn
  rw [releaseForChild, use_modify, if_neg hne]

theorem kept_incRef : σ.Kept (σ.incRef id) :=
  kept_of_skel (skel_incRef σ) (marks_incRef σ) fun _ _ => use_incRef id _

theorem kept_decRef : σ.Kept (σ.decRef id) :=
  kept_of_skel (skel_decRef σ id) (marks_decRef σ) fun _ _ => use_decRef id _

/-- What a lookup or the creation of a scope does to the counters. -/
theorem Looked.use (h : σ.Looked τ) (hx : x ≠ σ.fresh) : τ.use x = σ.use x :=
  h.keep (π := fun s => s.rc.usage) (fun _ => rfl) hx

theorem Looked.use_fresh (h : σ.Looked τ) (hnext : τ.next = σ.next + 1) : τ.use σ.fresh = 0 := by
  cases h with
  | found _ hsame => omega
  | created _ hscopes =>
    simp only [Manager.use, hscopes, newResourceScope_scopes]
    exact Resources.usage_zero { limit := _ }

theorem Looked.edges (h : σ.Looked τ) (hn : n < σ.next) :
    (τ.scopes (.node n)).edges = (σ.scopes (.node n)).edges := by
  have hne : .node n ≠ σ.fresh := fun heq => by injection heq with heq; omega
  exact h.keep (fun _ => rfl) hne

/-- Creating a scope, with whatever entry in the tables. -/
theorem Looked.kept (h : σ.Looked τ)
    (hconns : ∀ n, n < σ.next → τ.conns (.node n) = σ.conns (.node n))
    (hstreams : ∀ n, n < σ.next → τ.streams (.node n) = σ.streams (.node n)) : σ.Kept τ where
  next := h.next_le
  old n hn := by
    have hne : .node n ≠ σ.fresh := fun heq => by injection heq with heq; omega
    exact ⟨congrArg Prod.fst (h.marks hne), h.edges hn, by rw [hconns n hn], by rw [hstreams n hn],
      fun _ => h.use hne⟩
  new n hge hlt _ := by
    have hle := h.next_succ
    have hn : n = σ.next := by omega
    subst hn
    exact h.use_fresh (by omega)

end use

/-! ## Steps that change one holder -/

section change

variable {σ τ : Manager}

section

variable (hn : n < σ.next) (hnext : τ.next = σ.next)
  (hothers : ∀ m, m < σ.next → m ≠ n → KeptNode σ τ m)
include hn hnext hothers

/-- Only the `n`-th scope changed. -/
theorem holdings_change :
    τ.holdings S = σ.holdings S - σ.held S n + τ.held S n := by
  rw [holdings, hnext]
  exact total_change hn fun m hm hne => (hothers m hm hne).held S

theorem totalMemory_change :
    τ.totalMemory = σ.totalMemory - σ.ownMemory n + τ.ownMemory n := by
  rw [totalMemory, hnext]
  exact total_change hn fun m hm hne => (hothers m hm hne).ownMemory

end

theorem held_of_open (hlive : (σ.scopes (.node n)).done = false)
    (hc : σ.closable (.node n) = true) :
    σ.held S n = (σ.scopes (.node n)).edges.count S • σ.use (.node n) :=
  if_pos ⟨hlive, hc⟩

theorem held_of_done (hdone : (σ.scopes (.node n)).done = true) :
    σ.held S n = 0 :=
  if_neg fun h => by rw [hdone] at h; cases h.1

theorem ownMemory_of_open (hlive : (σ.scopes (.node n)).done = false)
    (hc : σ.closable (.node n) = true) : σ.ownMemory n = σ.use (.node n) .memory :=
  if_pos ⟨hlive, hc⟩

theorem ownMemory_of_done (hdone : (σ.scopes (.node n)).done = true) :
    σ.ownMemory n = 0 :=
  if_neg fun h => by rw [hdone] at h; cases h.1

/-- A shared scope is no holder. -/
theorem held_of_shared (hc : σ.closable (.node n) = false) :
    σ.held S n = 0 :=
  if_neg fun h => by rw [hc] at h; cases h.2

theorem ownMemory_of_shared (hc : σ.closable (.node n) = false) : σ.ownMemory n = 0 :=
  if_neg fun h => by rw [hc] at h; cases h.2

end change

/-! ## Bounds -/

section bounds

variable {σ : Manager}

section

variable (hnn : ∀ {n}, σ.closable (.node n) = true → 0 ≤ σ.use (.node n))
include hnn

theorem held_nonneg (S : ScopeId) (n : Nat) : 0 ≤ σ.held S n := by
  simp only [held]
  split
  · rename_i hc; exact nsmul_nonneg (hnn hc.2) _
  · exact le_refl 0

theorem holdings_nonneg : 0 ≤ σ.holdings S :=
  total_nonneg fun n _ => held_nonneg hnn S n

/-- A scope holds at least what one connection or stream attached to it does. -/
theorem use_le_holdings (hn : n < σ.next) (hlive : (σ.scopes (.node n)).done = false)
    (hc : σ.closable (.node n) = true) (hS : S ∈ (σ.scopes (.node n)).edges) :
    σ.use (.node n) ≤ σ.holdings S := by
  have hle := le_total hn fun m _ => held_nonneg hnn S m
  rw [held_of_open hlive hc] at hle
  have hone : 1 • σ.use (.node n) ≤ (σ.scopes (.node n)).edges.count S • σ.use (.node n) :=
    nsmul_le_nsmul_left (hnn hc) (List.count_pos_iff.mpr hS)
  rw [one_nsmul] at hone
  exact hone.trans hle

end

/-- Edges are met once, so no holder counts its memory twice. -/
theorem held_le (h : σ.Sound)
    (hnn : ∀ {n}, σ.closable (.node n) = true → 0 ≤ σ.use (.node n)) (S : ScopeId)
    (hn : n < σ.next) : 0 ≤ σ.ownMemory n - σ.held S n .memory := by
  have hnodup : (σ.scopes (.node n)).edges.Nodup := h.shape.edges_nodup hn
  simp only [ownMemory, held]
  split
  · rename_i hc
    have hpos : 0 ≤ σ.use (.node n) .memory := hnn hc.2 .memory
    have hcount : (σ.scopes (.node n)).edges.count S ≤ 1 := List.nodup_iff_count_le_one.mp hnodup S
    rcases Nat.le_one_iff_eq_zero_or_eq_one.mp hcount with hz | ho
    · rw [hz]; simpa using hpos
    · rw [ho]; simp
  · exact le_refl _

theorem totalMemory_sub (S : ScopeId) : σ.totalMemory - σ.holdings S .memory =
    total σ.next fun n => σ.ownMemory n - σ.held S n .memory := by
  simp [totalMemory, holdings, total]

/-- What a scope holds, and what a connection or stream not attached to it holds,
is at most what they hold all together. -/
theorem holdings_room (h : σ.Sound)
    (hnn : ∀ {n}, σ.closable (.node n) = true → 0 ≤ σ.use (.node n)) (hn : n < σ.next)
    (hS : S ∉ (σ.scopes (.node n)).edges) :
    σ.holdings S .memory + σ.ownMemory n ≤ σ.totalMemory := by
  have hself : σ.held S n .memory = 0 := by
    simp only [held, List.count_eq_zero.mpr hS]
    split <;> simp
  have htotal := le_total hn fun m hm => held_le h hnn S hm
  rw [← totalMemory_sub] at htotal
  omega

theorem holdings_le (h : σ.Sound)
    (hnn : ∀ {n}, σ.closable (.node n) = true → 0 ≤ σ.use (.node n)) :
    σ.holdings S .memory ≤ σ.totalMemory := by
  have htotal := total_nonneg fun m hm => held_le h hnn S hm
  rw [← totalMemory_sub] at htotal
  omega

/-- Nothing is held of a scope to which no open connection or stream is attached. -/
theorem holdings_unattached (hS : ∀ n, n < σ.next →
    (σ.scopes (.node n)).done = false → σ.closable (.node n) = true →
      S ∉ (σ.scopes (.node n)).edges) : σ.holdings S = 0 := by
  refine total_eq_zero fun n hn => ?_
  simp only [held]
  split
  · rename_i hc; rw [List.count_eq_zero.mpr (hS n hn hc.1 hc.2), zero_nsmul]
  · rfl

end bounds

end Manager

end Dep2p.Rcmgr
