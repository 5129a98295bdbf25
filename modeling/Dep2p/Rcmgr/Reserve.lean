import Dep2p.Rcmgr.Scope

/- Reservations are all-or-nothing along the path of a scope.

   `acquire` reserves scope by scope and undoes on refusal, recursing through the
   owners of a span. `Charges` says in one place what such a run does to a path:
   if every scope of the path accepts, each is charged; otherwise the scopes
   before the first that refuses are charged and undone, and nothing else is
   touched. What a charge and its undo do to the counters is then a fact about
   one scope, and it is exact: a charge adds what was asked unless the memory
   counter overflows (an unlimited scope does not test for it), and the undo
   restores the counters unless one of them was negative (a release clamps). -/
namespace Dep2p.Rcmgr

open Lib List Resources Store ResourceScope

variable {rc rc' : Resources} {s : ResourceScope} {g' : Graph}

/-! ## One scope -/

variable {r : Reservation}

namespace Reservation

/-- The charge does not overflow the memory counter. -/
def Fits : Reservation → Resources → Prop
  | .memory size _, rc => rc.memory.toInt + size.toInt < 2 ^ 63
  | _, _ => True

/-- No counter the reservation changes is negative. -/
def Undoable : Reservation → Resources → Prop
  | .memory _ _, rc => 0 ≤ rc.memory.toInt
  | .stream _, rc => 0 ≤ rc.nstreamsIn ∧ 0 ≤ rc.nstreamsOut
  | .conn _ _, rc => 0 ≤ rc.nconnsIn ∧ 0 ≤ rc.nconnsOut ∧ 0 ≤ rc.nfd

theorem undoable_of_nonneg (h : rc.Nonneg) : r.Undoable rc := by
  obtain ⟨hm, hi, ho, hci, hco, hf⟩ := nonneg_iff.mp h
  cases r with
  | memory size prio => exact hm
  | stream dir => exact ⟨hi, ho⟩
  | conn dir usefd => exact ⟨hci, hco, hf⟩

/-- An accepted charge adds exactly what was asked iff memory does not overflow. -/
theorem take_usage (h : r.take rc = .ok rc') : rc'.usage = rc.usage + r.usage ↔ r.Fits rc := by
  cases r with
  | stream dir => simp only [usage, (addStream_ok h).1, Fits]
  | conn dir usefd => simp only [usage, (addConn_ok h).1, Fits]
  | memory size prio =>
    obtain ⟨hc, rfl⟩ := reserveMemory_ok h
    have hs := checkMemory_none hc
    have hlow := rc.memory.le_toInt
    refine ⟨?_, ?_⟩
    · intro heq
      have hmem : (rc.memory + size).toInt = rc.memory.toInt + size.toInt := congrFun heq .memory
      have := (rc.memory + size).toInt_lt
      simp only [Fits]; omega
    · intro hfit
      rw [usage_memory_set, toInt_add_of_range (by omega) hfit]
      congr 2; omega

/-- A release clamps what it changes. -/
theorem undoable_giveBack : r.Undoable (r.giveBack rc) := by
  cases r with
  | memory size prio =>
    simp only [giveBack, Undoable, releaseMemory]
    split
    · exact le_refl 0
    · rename_i hn; rw [lt_zero_iff] at hn; omega
  | stream dir =>
    simp only [giveBack, removeStream]
    split <;> exact ⟨clamp_nonneg _, clamp_nonneg _⟩
  | conn dir usefd =>
    simp only [giveBack, removeConn]
    split <;> exact ⟨clamp_nonneg _, clamp_nonneg _, clamp_nonneg _⟩

theorem undoable_of_usage (h : rc'.usage = rc.usage) (hu : r.Undoable rc') : r.Undoable rc := by
  have hc : ∀ c, 0 ≤ rc'.usage c → 0 ≤ rc.usage c := fun c hc => h ▸ hc
  cases r with
  | memory size prio => exact hc .memory hu
  | stream dir => exact ⟨hc .streamsIn hu.1, hc .streamsOut hu.2⟩
  | conn dir usefd => exact ⟨hc .connsIn hu.1, hc .connsOut hu.2.1, hc .fd hu.2.2⟩

/-- The undo of an accepted charge restores the counters iff none of those it
changes was negative. -/
theorem giveBack_usage (h : r.take rc = .ok rc') :
    (r.giveBack rc').usage = rc.usage ↔ r.Undoable rc := by
  refine ⟨fun heq => undoable_of_usage heq undoable_giveBack, ?_⟩
  intro hu
  cases r with
  | memory size prio =>
    obtain ⟨-, rfl⟩ := reserveMemory_ok h
    simp [giveBack, releaseMemory_undo size hu]
  | stream dir =>
    simp only [take, addStream] at h
    simp only [giveBack, removeStream]
    split <;> rename_i hd <;> simp only [hd, if_false] at h <;>
      obtain ⟨rfl, -⟩ := addStreams_ok h <;>
      rw [removeStreams_undo _ _ hu.1 hu.2]
  | conn dir usefd =>
    simp only [take, addConn] at h
    simp only [giveBack, removeConn]
    split <;> rename_i hd <;> simp only [hd, if_false] at h <;>
      obtain ⟨rfl, -⟩ := addConns_ok h <;>
      rw [removeConns_undo _ _ _ hu.1 hu.2.1 hu.2.2]

end Reservation

namespace ResourceScope

/-- The scope is open and its counters take the reservation. -/
def Admits (r : Reservation) (s : ResourceScope) : Prop := Store.Accepts (acquireForChild r) s

/-- The scope after an accepted reservation. -/
def charged (r : Reservation) : ResourceScope → ResourceScope := Store.taken (acquireForChild r)

/-- The scope after a reservation that was accepted and given back. -/
def undone (r : Reservation) : ResourceScope → ResourceScope := forChild r.giveBack ∘ charged r

theorem admits_iff : s.Admits r ↔ s.done = false ∧ ∃ rc, r.take s.rc = .ok rc := by
  simp only [Admits, Store.Accepts, acquireForChild]
  cases hd : s.done <;> cases ht : r.take s.rc <;> simp

theorem charged_eq (hd : s.done = false) (h : r.take s.rc = .ok rc) :
    s.charged r = { s with rc } := by
  simp [charged, taken, acquireForChild, hd, h]

/-- A charge changes the counters only. -/
theorem charged_rc :
    s.charged r = { s with rc := (s.charged r).rc } := by
  simp only [charged, taken, acquireForChild]
  cases s with
  | mk done refCnt spanID rc edges name => cases done <;> cases r.take rc <;> rfl

theorem undone_eq (h : s.Admits r) : s.undone r = { s with rc := r.giveBack (s.charged r).rc } := by
  obtain ⟨hd, rc, ht⟩ := admits_iff.mp h
  simp [undone, charged_eq hd ht, forChild, hd]

theorem charged_usage (h : s.Admits r) :
    (s.charged r).rc.usage = s.rc.usage + r.usage ↔ r.Fits s.rc := by
  obtain ⟨hd, rc, ht⟩ := admits_iff.mp h
  rw [charged_eq hd ht]
  exact Reservation.take_usage ht

theorem undone_usage (h : s.Admits r) : (s.undone r).rc.usage = s.rc.usage ↔ r.Undoable s.rc := by
  obtain ⟨hd, rc, ht⟩ := admits_iff.mp h
  rw [undone_eq h, charged_eq hd ht]
  exact Reservation.giveBack_usage ht

end ResourceScope

/-! ## The path of a scope -/

namespace Graph

/-- What a run that reserves `r` does to the scopes of `p`. -/
structure Charges (r : Reservation) (run : Graph → Graph × Option RcErr) (p : List ScopeId)
    (g : Graph) : Prop where
  accepts : (∀ x ∈ p, (g x).Admits r) →
    run g = (Store.modifyEach (·.charged r) p g, none)
  refuses : ∀ pre x post, p = pre ++ x :: post → (∀ y ∈ pre, (g y).Admits r) → ¬ (g x).Admits r →
    ∃ err, run g = (Store.modifyEach (·.undone r) pre g, some err)

theorem acquireForEdges_charges (r : Reservation) {edges : List ScopeId} (hn : edges.Nodup)
    (g : Graph) : Charges r (acquireForEdges r edges) edges g where
  accepts h := allOrNothing_accepts _ hn h
  refuses pre x post hp hpre hx := by
    subst hp
    obtain ⟨err, herr⟩ := not_accepts.mp hx
    exact ⟨err, allOrNothing_refuses _ hn hpre herr⟩

section acquireAt

variable {r : Reservation} {id : ScopeId} {rest : Graph → Graph × Option RcErr} {g : Graph}

theorem modify_charged (h : (g id).Admits r) :
    ∃ rc, (g id).done = false ∧ r.take (g id).rc = .ok rc ∧
      (g.modify id fun s => { s with rc }) = g.modify id (·.charged r) := by
  obtain ⟨hd, rc, ht⟩ := admits_iff.mp h
  exact ⟨rc, hd, ht, by simp [Store.modify, charged_eq hd ht]⟩

theorem acquireAt_ok (h : (g id).Admits r) (hrest : rest (g.modify id (·.charged r)) = (g', none)) :
    acquireAt r id rest g = (g', none) := by
  obtain ⟨rc, hd, ht, hself⟩ := modify_charged h
  simp [acquireAt, hd, ht, hself, hrest]

theorem acquireAt_undo {err : RcErr} (h : (g id).Admits r)
    (hrest : rest (g.modify id (·.charged r)) = (g', some err)) :
    acquireAt r id rest g =
      (g'.modify id fun s => { s with rc := r.giveBack s.rc }, some ((g id).wrapError err)) := by
  obtain ⟨rc, hd, ht, hself⟩ := modify_charged h
  simp [acquireAt, hd, ht, hself, hrest]

theorem acquireAt_refuses (h : ¬ (g id).Admits r) : ∃ err, acquireAt r id rest g = (g, some err) := by
  rw [admits_iff] at h
  simp only [acquireAt]
  cases hd : (g id).done with
  | true => exact ⟨_, if_pos rfl⟩
  | false =>
    cases ht : r.take (g id).rc with
    | ok rc => exact absurd ⟨hd, rc, ht⟩ h
    | error err => exact ⟨(g id).wrapError err, by simp⟩

/-- Charging `id` before a run that charges `tail` charges `id :: tail`. -/
theorem acquireAt_charges {tail : List ScopeId} (hid : id ∉ tail)
    (h : Charges r rest tail (g.modify id (·.charged r))) :
    Charges r (acquireAt r id rest) (id :: tail) g := by
  have hstep : ∀ x ∈ tail, g.modify id (·.charged r) x = g x := by
    intro x hx
    exact modify_of_ne (by rintro rfl; exact hid hx) g _
  refine ⟨?_, ?_⟩
  · intro hall
    have hrest := h.accepts fun x hx => by
      rw [hstep x hx]; exact hall x (mem_cons_of_mem _ hx)
    exact acquireAt_ok (hall id mem_cons_self) hrest
  · intro pre x post hp hpre hx
    cases pre with
    | nil =>
      obtain ⟨rfl, -⟩ := cons.inj hp
      exact acquireAt_refuses hx
    | cons a pre =>
      obtain ⟨rfl, rfl⟩ := cons.inj hp
      have hadm := hpre id mem_cons_self
      have hmem : ∀ y ∈ pre, y ∈ pre ++ x :: post := fun y hy => mem_append_left _ hy
      obtain ⟨err, hrest⟩ := h.refuses pre x post rfl
        (fun y hy => by rw [hstep y (hmem y hy)]; exact hpre y (mem_cons_of_mem _ hy))
        (by rw [hstep x (by simp)]; exact hx)
      refine ⟨(g id).wrapError err, ?_⟩
      rw [acquireAt_undo hadm hrest, Prod.mk.injEq]
      refine ⟨?_, rfl⟩
      -- the undo at `id` meets the state `id` was charged to: the rest did not visit it
      have hpre' : id ∉ pre := fun hm => hid (hmem id hm)
      funext y
      by_cases hy : y = id
      · subst hy
        rw [modifyEach_cons, modifyEach_of_notMem hpre', modify_self,
          modify_self, modifyEach_of_notMem hpre', modify_self,
          undone_eq hadm, charged_rc]
      · rw [modify_of_ne hy, modifyEach_cons, modifyEach_apply,
          modifyEach_apply, modify_of_ne hy, modify_of_ne hy]

end acquireAt

theorem path_congr {g : Graph} (h : ∀ x, (g' x).edges = (g x).edges) (id : ScopeId) :
    g'.path id = g.path id := by
  induction id with
  | node n => simp only [path, h]
  | span owner k ih => simp only [path, ih]

theorem modify_charged_edges (r : Reservation) (g : Graph) (id x : ScopeId) :
    (g.modify id (·.charged r) x).edges = (g x).edges := by
  rw [modify_apply]
  split
  · rename_i h; rw [h, charged_rc]
  · rfl

/-- A reservation charges the path of its scope, whatever the length of the
edges list and the depth of the span chain. -/
theorem acquire_charges (id : ScopeId) (g : Graph) (hn : (g.path id).Nodup) :
    Charges r (acquire r id) (g.path id) g := by
  induction id generalizing g with
  | node n =>
    obtain ⟨hid, hedges⟩ := nodup_cons.mp hn
    have h := acquireForEdges_charges r hedges (g.modify (.node n) (·.charged r))
    refine acquireAt_charges hid ⟨fun ha => ?_, fun pre x post hp ha hx => ?_⟩
    · simpa only [modify_charged_edges] using h.accepts ha
    · simpa only [modify_charged_edges] using h.refuses pre x post hp ha hx
  | span owner k ih =>
    obtain ⟨hid, howner⟩ := nodup_cons.mp hn
    have hpath := path_congr (modify_charged_edges r g (.span owner k)) owner
    rw [← hpath] at howner
    have h := ih _ howner
    rw [hpath] at h
    exact acquireAt_charges hid h

/-! ## All or nothing -/

/-- A refused reservation changes no counter of any scope. An accepted one adds
what was asked to the counters of every scope of the path, and changes no other
scope. -/
def AllOrNothing (r : Reservation) (id : ScopeId) (g : Graph) : Prop :=
  match acquire r id g with
  | (g', some _) => ∀ x, (g' x).rc.usage = (g x).rc.usage
  | (g', none) => ∀ x,
      if x ∈ g.path id then (g' x).rc.usage = (g x).rc.usage + r.usage else g' x = g x

/-- When all scopes of the path admit the reservation, it overflows none of
them; when one refuses, the scopes asked before it have no negative counter. -/
structure Guarded (r : Reservation) (id : ScopeId) (g : Graph) : Prop where
  fits : (∀ x ∈ g.path id, (g x).Admits r) → ∀ x ∈ g.path id, r.Fits (g x).rc
  undoable : ∀ pre x post, g.path id = pre ++ x :: post → (∀ y ∈ pre, (g y).Admits r) →
    ¬ (g x).Admits r → ∀ y ∈ pre, r.Undoable (g y).rc

section allOrNothing

variable {r : Reservation} {id : ScopeId} {g : Graph}

theorem allOrNothing_of_admits (hn : (g.path id).Nodup) (h : ∀ x ∈ g.path id, (g x).Admits r) :
    AllOrNothing r id g ↔ ∀ x ∈ g.path id, r.Fits (g x).rc := by
  simp only [AllOrNothing, (acquire_charges id g hn).accepts h]
  refine forall_congr' fun x => ?_
  rw [modifyEach_of_nodup hn]
  by_cases hx : x ∈ g.path id
  · simp only [hx, true_imp_iff]
    exact charged_usage (h x hx)
  · simp only [hx, if_false, false_imp_iff]

theorem allOrNothing_of_refuses (hn : (g.path id).Nodup) {pre post : List ScopeId} {x : ScopeId}
    (hp : g.path id = pre ++ x :: post) (hpre : ∀ y ∈ pre, (g y).Admits r)
    (hx : ¬ (g x).Admits r) : AllOrNothing r id g ↔ ∀ y ∈ pre, r.Undoable (g y).rc := by
  obtain ⟨err, hrun⟩ := (acquire_charges id g hn).refuses pre x post hp hpre hx
  have hnp : pre.Nodup := by rw [hp] at hn; exact hn.of_append_left
  simp only [AllOrNothing, hrun]
  refine forall_congr' fun y => ?_
  rw [modifyEach_of_nodup hnp]
  by_cases hy : y ∈ pre
  · simp only [hy, true_imp_iff]
    exact undone_usage (hpre y hy)
  · simp only [hy, if_false, false_imp_iff]

end allOrNothing

/-- The identifiers of a path are met once when edges are distinct nodes other
than the scope itself. -/
theorem path_nodup {g : Graph} (hn : ∀ n, (g (.node n)).edges.Nodup)
    (hself : ∀ n, .node n ∉ (g (.node n)).edges)
    (hnode : ∀ n, ∀ e ∈ (g (.node n)).edges, ∃ m, e = .node m) (id : ScopeId) :
    (g.path id).Nodup := by
  have hsmall : ∀ id, ∀ x ∈ g.path id, ∀ o k, x = .span o k → sizeOf x ≤ sizeOf id := by
    intro id
    induction id with
    | node n =>
      intro x hx o k hspan
      rcases mem_cons.mp hx with rfl | hx
      · exact le_refl _
      · obtain ⟨m, rfl⟩ := hnode n x hx
        cases hspan
    | span owner j ih =>
      intro x hx o k hspan
      rcases mem_cons.mp hx with rfl | hx
      · exact le_refl _
      · have := ih x hx o k hspan
        simp only [ScopeId.span.sizeOf_spec]; omega
  induction id with
  | node n => exact nodup_cons.mpr ⟨hself n, hn n⟩
  | span owner k ih =>
    refine nodup_cons.mpr ⟨fun hmem => ?_, ih⟩
    have := hsmall owner _ hmem owner k rfl
    simp only [ScopeId.span.sizeOf_spec] at this; omega

end Graph

/-- A scope graph: no reservation meets a scope twice on its way through the
owner chain and the edges of the root. -/
structure ScopeGraph where
  scopes : Graph
  nodup : ∀ id, (scopes.path id).Nodup

/-- Reservations are all-or-nothing exactly on the graphs whose counters on the
path neither overflow nor are negative. -/
theorem reservation_allOrNothing_iff (g : ScopeGraph) (r : Reservation) (id : ScopeId) :
    Graph.AllOrNothing r id g.scopes ↔ Graph.Guarded r id g.scopes := by
  have hn := g.nodup id
  rcases forall_or_first (fun x => (g.scopes x).Admits r) (g.scopes.path id) with
    hall | ⟨pre, x, post, hp, hpre, hx⟩
  · rw [Graph.allOrNothing_of_admits hn hall]
    refine ⟨fun hf => ⟨fun _ => hf, ?_⟩, fun hg => hg.fits hall⟩
    intro pre x post hp _ hx
    exact absurd (hall x (by rw [hp]; simp)) hx
  · refine ⟨fun h => ⟨fun hall => ?_, ?_⟩, fun hg => ?_⟩
    · exact absurd (hall x (by rw [hp]; simp)) hx
    · intro pre' x' post' hp' hpre' hx'
      exact (Graph.allOrNothing_of_refuses hn hp' hpre' hx').mp h
    · exact (Graph.allOrNothing_of_refuses hn hp hpre hx).mpr (hg.undoable pre x post hp hpre hx)

/-- `infiniteBaseLimit`. -/
def infiniteBaseLimit : Limit :=
  { streams := Int64.maxValue.toInt, streamsInbound := Int64.maxValue.toInt,
    streamsOutbound := Int64.maxValue.toInt, conns := Int64.maxValue.toInt,
    connsInbound := Int64.maxValue.toInt, connsOutbound := Int64.maxValue.toInt,
    fd := Int64.maxValue.toInt, memory := Int64.maxValue }

/-- A connection under an unlimited system scope whose memory counter is full. -/
def fullSystem : ScopeGraph where
  scopes
    | .node 1 => { rc := { limit := infiniteBaseLimit }, name := .conn 1, edges := [.node 0] }
    | _ => { rc := { limit := infiniteBaseLimit, memory := Int64.maxValue }, name := .system }
  nodup := by
    refine Graph.path_nodup ?_ ?_ ?_ <;> intro n <;> by_cases h : n = 1 <;> simp [h]

/-- The reservation of one more byte is accepted and the system counter wraps. -/
theorem reservation_wraps : ¬ Graph.AllOrNothing (.memory 1 255) (.node 1) fullSystem.scopes := by
  have hadm : ∀ x ∈ fullSystem.scopes.path (.node 1),
      (fullSystem.scopes x).Admits (.memory 1 255) := by
    exact forall_mem_cons.mpr ⟨⟨_, rfl⟩, forall_mem_singleton.mpr ⟨_, rfl⟩⟩
  rw [Graph.allOrNothing_of_admits (fullSystem.nodup _) hadm]
  intro hfit
  have hsys : (Int64.maxValue.toInt + (1 : Int64).toInt) < 2 ^ 63 :=
    hfit (.node 0) (mem_cons_of_mem _ mem_cons_self)
  exact absurd hsys (by decide)

end Dep2p.Rcmgr
