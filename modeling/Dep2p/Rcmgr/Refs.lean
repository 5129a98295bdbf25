import Dep2p.Lib.Ledger
import Dep2p.Rcmgr.Shape

/- Reference counts.

   A reference on a scope is held by every open scope that lists it as an edge,
   by every open span it owns, by the manager on the four permanent scopes, and
   by every view that is open. `gap` is the difference between the count a scope
   keeps and the references held. Each primitive step changes the gap of a scope
   by an amount that does not depend on the rest of the state, and the amounts of
   an operation add up to nothing, unless it moves the edges of a closed scope or
   of a connection that has none. -/
namespace Dep2p.Rcmgr

open Lib Function ResourceScope Rcmgr.Graph Ledger Store ScopeId Prod

namespace Manager

/-! ## Marks

Which scopes are closed and how many spans each has begun. -/

/-- The marks `done` and `spanID` of every scope. -/
def marks (σ : Manager) : ScopeId → Bool × Nat :=
  fun x => ((σ.scopes x).done, (σ.scopes x).spanID)

variable {id : ScopeId} {edges : List ScopeId} {st : ScopeStat}

section marks

variable (σ : Manager)

theorem marks_scopes {g : Graph} (hdone : ∀ x, (g x).done = (σ.scopes x).done)
    (hspan : ∀ x, (g x).spanID = (σ.scopes x).spanID) : { σ with scopes := g }.marks = σ.marks := by
  funext x
  exact Prod.ext (hdone x) (hspan x)

theorem marks_modify {f : ResourceScope → ResourceScope}
    (hdone : ∀ s, (f s).done = s.done) (hspan : ∀ s, (f s).spanID = s.spanID) :
    (σ.modify id f).marks = σ.marks :=
  marks_scopes σ (fun _ => modify_keep hdone _ _) fun _ => modify_keep hspan _ _

@[simp] theorem marks_incRef : (σ.incRef id).marks = σ.marks :=
  marks_modify σ (fun _ => rfl) fun _ => rfl

@[simp] theorem marks_decRef : (σ.decRef id).marks = σ.marks :=
  marks_modify σ (fun _ => rfl) fun _ => rfl

@[simp] theorem marks_setEdges :
    (σ.setEdges id edges).marks = σ.marks :=
  marks_modify σ (fun _ => rfl) fun _ => rfl

@[simp] theorem marks_releaseForChild :
    (σ.releaseForChild id st).marks = σ.marks :=
  marks_modify σ (forChild_keep uncounted_done _) (forChild_keep uncounted_spanID _)

@[simp] theorem marks_reserveForChild :
    (σ.reserveForChild id st).1.marks = σ.marks :=
  marks_modify σ (reserveForChild_keep uncounted_done)
    (reserveForChild_keep uncounted_spanID)

@[simp] theorem marks_releaseEdges :
    (σ.releaseEdges edges st).marks = σ.marks := by
  refine marks_scopes σ (fun x => ?_) fun x => ?_
  · exact modifyEach_keep (π := ResourceScope.done)
      (f := fun s => (s.releaseForChild st).decRef) (forChild_keep uncounted_done _) _ _ _
  · exact modifyEach_keep (π := spanID)
      (f := fun s => (s.releaseForChild st).decRef) (forChild_keep uncounted_spanID _) _ _ _

@[simp] theorem marks_acquire (r : Reservation) :
    (σ.acquire r id).1.marks = σ.marks :=
  marks_scopes σ (fun _ => acquire_keep uncounted_done r _ _)
    fun _ => acquire_keep uncounted_spanID r _ _

@[simp] theorem marks_setConn (c : ConnectionScope) :
    (σ.setConn id c).marks = σ.marks := rfl

@[simp] theorem marks_setStream (s : StreamScope) :
    (σ.setStream id s).marks = σ.marks := rfl

theorem marks_newResourceScope (limit : Limit) (edges : List ScopeId) (name : ScopeName) :
    (σ.newResourceScope limit edges name).marks = update σ.marks σ.fresh (false, 0) := by
  funext x
  by_cases hx : x = σ.fresh
  · subst hx
    simp [marks, newResourceScope, Graph.newResourceScope]
  · rw [update_of_ne hx]
    exact newResourceScope_keep σ (π := fun s => (s.done, s.spanID)) (fun _ => rfl) _ _ hx

/-- Closing marks the scope and no other. -/
theorem marks_doneUnlocked (id : ScopeId) :
    (σ.doneUnlocked id).marks = update σ.marks id (true, (σ.scopes id).spanID) := by
  funext x
  simp only [marks, doneUnlocked, Graph.doneUnlocked, update_apply]
  have hdone := detach_keep uncounted_done (fun _ => rfl) σ.scopes (σ.scopes id).rc.stat id
  have hspan := detach_keep uncounted_spanID (fun _ => rfl) σ.scopes (σ.scopes id).rc.stat id
  split
  · rename_i hd
    split
    · rename_i hx; rw [hx, hd]
    · rfl
  · rw [modify_apply]
    split
    · simp [hspan id]
    · simp [hdone x, hspan x]

end marks

variable {x : ScopeId}

theorem doneUnlocked_done (σ : Manager) (id x : ScopeId) :
    ((σ.doneUnlocked id).scopes x).done = if x = id then true else (σ.scopes x).done := by
  have hmarks := congrArg fst (congrFun (marks_doneUnlocked σ id) x)
  rw [update_apply] at hmarks
  refine hmarks.trans ?_
  split <;> rfl

/-! ## The gap -/

/-- The references the `n`-th scope holds on `S` by its edges. -/
def edgeRefs (σ : Manager) (S : ScopeId) (n : Nat) : Int :=
  if (σ.scopes (.node n)).done then 0 else (σ.scopes (.node n)).edges.count S

/-- The reference the span of `S` with number `k + 1` holds on it. -/
def spanRefs (σ : Manager) (S : ScopeId) (k : Nat) : Int :=
  if (σ.scopes (.span S (k + 1))).done then 0 else 1

/-- The reference the manager holds on a permanent scope. -/
def pins (S : ScopeId) : Int :=
  if S ∈ [system, transient, allowlistedSystem, allowlistedTransient] then 1 else 0

/-- The references held on `S`. -/
def due (σ : Manager) (S : ScopeId) : Int :=
  Ledger.total σ.next (σ.edgeRefs S) + Ledger.total (σ.scopes S).spanID (σ.spanRefs S) + pins S +
    σ.views.count S

def gap (σ : Manager) (S : ScopeId) : Int := (σ.scopes S).refCnt - σ.due S

variable {σ' : Manager}

/-- The references held on a scope are read off the edges, the marks and the views. -/
theorem due_congr {σ : Manager} (hskel : σ'.skel = σ.skel) (hmarks : σ'.marks = σ.marks)
    (hviews : σ'.views = σ.views) (S : ScopeId) : σ'.due S = σ.due S := by
  have hnext : σ'.next = σ.next := congrArg Skeleton.next hskel
  have hdone : ∀ x, (σ'.scopes x).done = (σ.scopes x).done := fun x =>
    congrArg fst (congrFun hmarks x)
  have hspan : (σ'.scopes S).spanID = (σ.scopes S).spanID := congrArg snd (congrFun hmarks S)
  have hed : ∀ n, (σ'.scopes (.node n)).edges = (σ.scopes (.node n)).edges :=
    congrFun (congrArg Skeleton.edges hskel)
  have hrefs : σ'.edgeRefs S = σ.edgeRefs S := by
    funext n; simp only [edgeRefs, hdone, hed]
  have hspans : σ'.spanRefs S = σ.spanRefs S := by
    funext k; simp only [spanRefs, hdone]
  simp [due, hnext, hrefs, hspan, hspans, hviews]

/-- The gap is read off the scopes, their number and the views. -/
theorem gap_of_parts {σ : Manager} (hscopes : σ'.scopes = σ.scopes) (hnext : σ'.next = σ.next)
    (hviews : σ'.views = σ.views) (S : ScopeId) : σ'.gap S = σ.gap S := by
  have hrefs : σ'.edgeRefs S = σ.edgeRefs S := by funext n; simp only [edgeRefs, hscopes]
  have hspans : σ'.spanRefs S = σ.spanRefs S := by funext k; simp only [spanRefs, hscopes]
  simp [gap, due, hscopes, hnext, hviews, hrefs, hspans]

variable {o : ScopeId} {k : Nat}

section gap

variable (σ : Manager) (S : ScopeId) {n : Nat}

theorem gap_of_due {σ : Manager} {S : ScopeId} (h : σ'.due S = σ.due S) :
    σ'.gap S = σ.gap S + ((σ'.scopes S).refCnt - (σ.scopes S).refCnt) := by
  simp only [gap]; omega

theorem gap_incRef : (σ.incRef id).gap S = σ.gap S + if S = id then 1 else 0 := by
  rw [gap_of_due (due_congr (skel_incRef σ) (marks_incRef σ) rfl S)]
  simp only [incRef, modify, modify_apply]
  split
  · rename_i h; simp only [h, ResourceScope.incRef]; omega
  · omega

theorem gap_decRef : (σ.decRef id).gap S = σ.gap S - if S = id then 1 else 0 := by
  rw [gap_of_due (due_congr (skel_decRef σ id) (marks_decRef σ) rfl S)]
  simp only [decRef, modify, modify_apply]
  split
  · rename_i h; simp only [h, ResourceScope.decRef]; omega
  · omega

/-- A step that changes counters only. -/
theorem gap_of_counters {σ : Manager} (hskel : σ'.skel = σ.skel) (hmarks : σ'.marks = σ.marks)
    (hviews : σ'.views = σ.views) (href : ∀ x, (σ'.scopes x).refCnt = (σ.scopes x).refCnt)
    (S : ScopeId) : σ'.gap S = σ.gap S := by
  rw [gap_of_due (due_congr hskel hmarks hviews S), href]
  omega

@[simp] theorem gap_releaseForChild :
    (σ.releaseForChild id st).gap S = σ.gap S :=
  gap_of_counters (skel_releaseForChild σ) (marks_releaseForChild σ) rfl
    (fun _ => modify_keep (forChild_keep uncounted_refCnt _) _ _) S

@[simp] theorem gap_setConn (c : ConnectionScope) :
    (σ.setConn id c).gap S = σ.gap S := rfl

@[simp] theorem gap_setStream (s : StreamScope) :
    (σ.setStream id s).gap S = σ.gap S := rfl

theorem gap_releaseEdges :
    (σ.releaseEdges edges st).gap S = σ.gap S - edges.count S := by
  rw [gap_of_due (due_congr (skel_releaseEdges σ) (marks_releaseEdges σ) rfl S)]
  have href := modifyEach_add (π := refCnt)
    (f := fun s => (s.releaseForChild st).decRef)
    (fun s => congrArg (· + (-1 : Int)) (forChild_keep uncounted_refCnt (·.release st) s))
    edges σ.scopes S
  simp only [releaseEdges, href, nsmul_eq_mul]
  omega

/-- Moving the edges of an open scope. -/
theorem gap_setEdges (hn : n < σ.next) (hlive : (σ.scopes (.node n)).done = false)
    : (σ.setEdges (.node n) edges).gap S =
      σ.gap S + (σ.scopes (.node n)).edges.count S - edges.count S := by
  have hscope : ∀ x, (σ.setEdges (.node n) edges).scopes x =
      if x = .node n then { σ.scopes (.node n) with edges } else σ.scopes x := by
    intro x; simp only [setEdges, modify, modify_apply]
  have htotal : total σ.next ((σ.setEdges (.node n) edges).edgeRefs S) =
      total σ.next (σ.edgeRefs S) - (σ.scopes (.node n)).edges.count S + edges.count S := by
    rw [total_change hn (w := σ.edgeRefs S)]
    · simp [edgeRefs, hscope, hlive]
    · intro m _ hm; simp [edgeRefs, hscope, hm]
  have hspans : (σ.setEdges (.node n) edges).spanRefs S = σ.spanRefs S := by
    funext k; simp [spanRefs, hscope]
  have href : ((σ.setEdges (.node n) edges).scopes S).refCnt = (σ.scopes S).refCnt := by
    rw [hscope]; split <;> rename_i h <;> simp [h]
  have hspan : ((σ.setEdges (.node n) edges).scopes S).spanID = (σ.scopes S).spanID := by
    rw [hscope]; split <;> rename_i h <;> simp [h]
  have hnext : (σ.setEdges (.node n) edges).next = σ.next := rfl
  have hviews : (σ.setEdges (.node n) edges).views = σ.views := rfl
  simp only [gap, due, hnext, hviews, hspan, hspans]
  omega

theorem newResourceScope_scopes (limit : Limit) (edges : List ScopeId) (name : ScopeName)
    (x : ScopeId) : (σ.newResourceScope limit edges name).scopes x =
      if x = σ.fresh then { rc := { limit }, edges, name }
      else modifyEach (·.incRef) edges σ.scopes x := by
  simp [newResourceScope, Graph.newResourceScope, update_apply]

/-- A new scope takes a reference on each of its edges. -/
theorem gap_newResourceScope_of_ne {S : ScopeId} (hS : S ≠ σ.fresh) (limit : Limit)
    (name : ScopeName) :
    (σ.newResourceScope limit edges name).gap S = σ.gap S := by
  have hkeep : ∀ x, x ≠ σ.fresh →
      ((σ.newResourceScope limit edges name).scopes x).done = (σ.scopes x).done ∧
      ((σ.newResourceScope limit edges name).scopes x).edges = (σ.scopes x).edges ∧
      ((σ.newResourceScope limit edges name).scopes x).spanID = (σ.scopes x).spanID := by
    intro x hx
    exact ⟨newResourceScope_keep σ (fun _ => rfl) _ _ hx,
      newResourceScope_keep σ (fun _ => rfl) _ _ hx,
      newResourceScope_keep σ (fun _ => rfl) _ _ hx⟩
  have htotal : total (σ.next + 1) ((σ.newResourceScope limit edges name).edgeRefs S) =
      total σ.next (σ.edgeRefs S) + edges.count S := by
    rw [total_succ]
    congr 1
    · refine total_congr fun n hn => ?_
      have hne : node n ≠ σ.fresh := by
        simp only [fresh, ne_eq, node.injEq]; omega
      simp [edgeRefs, (hkeep _ hne).1, (hkeep _ hne).2.1]
    · simp [edgeRefs, newResourceScope_scopes, fresh]
  have hspans : (σ.newResourceScope limit edges name).spanRefs S = σ.spanRefs S := by
    funext k
    have hne : span S (k + 1) ≠ σ.fresh := by simp [fresh]
    simp [spanRefs, (hkeep _ hne).1]
  have href : ((σ.newResourceScope limit edges name).scopes S).refCnt =
      (σ.scopes S).refCnt + edges.count S := by
    rw [newResourceScope_scopes, if_neg hS, modifyEach_add (π := refCnt)
      (fun _ => rfl)]
    simp
  have hnext : (σ.newResourceScope limit edges name).next = σ.next + 1 := rfl
  have hviews : (σ.newResourceScope limit edges name).views = σ.views := rfl
  simp only [gap, due, hnext, hviews, (hkeep S hS).2.2, hspans]
  omega

/-- Nothing refers to a scope that was just created. -/
theorem gap_newResourceScope_fresh (h : σ.skel.Shape) (hviews : σ.fresh ∉ σ.views) (limit : Limit)
    (hedges : σ.fresh ∉ edges) (name : ScopeName) :
    (σ.newResourceScope limit edges name).gap σ.fresh = 0 := by
  have hself : (σ.newResourceScope limit edges name).scopes σ.fresh =
      { rc := { limit }, edges, name } := by
    rw [newResourceScope_scopes, if_pos rfl]
  have htotal : total (σ.next + 1) ((σ.newResourceScope limit edges name).edgeRefs σ.fresh) =
      0 := by
    refine total_eq_zero fun n hn => ?_
    have hnot : σ.fresh ∉ ((σ.newResourceScope limit edges name).scopes (.node n)).edges := by
      rcases Nat.lt_succ_iff_lt_or_eq.mp hn with hlt | rfl
      · have hne : node n ≠ σ.fresh := by
          simp only [fresh, ne_eq, node.injEq]; omega
        rw [newResourceScope_keep σ (π := ResourceScope.edges) (fun _ => rfl) _ _ hne]
        intro hmem
        obtain ⟨m, hm, hlt'⟩ := h.edge_created hlt hmem
        cases hm
        exact lt_irrefl _ hlt'
      · rw [show node σ.next = σ.fresh from rfl, hself]; exact hedges
    simp [edgeRefs, List.count_eq_zero.mpr hnot]
  have hpins : pins σ.fresh = 0 := by
    obtain ⟨n, hid, hlt, -⟩ := h.allowlistedTransient
    cases hid
    have hlt : 3 < σ.next := hlt
    refine if_neg ?_
    simp only [fresh, system, transient, allowlistedSystem, allowlistedTransient, List.mem_cons,
      node.injEq, List.not_mem_nil, or_false]
    omega
  have hnext : (σ.newResourceScope limit edges name).next = σ.next + 1 := rfl
  have hviews' : (σ.newResourceScope limit edges name).views.count σ.fresh = 0 :=
    List.count_eq_zero.mpr hviews
  simp only [gap, due, hnext, hself, htotal, hpins, hviews']
  rfl

/-- The last step of `doneUnlocked`. -/
def close (id : ScopeId) : Manager := σ.modify id fun s => { s with rc := s.rc.zero, done := true }

theorem close_scopes (id x : ScopeId) : (σ.close id).scopes x =
    if x = id then { σ.scopes id with rc := (σ.scopes id).rc.zero, done := true } else σ.scopes x := by
  simp [close, modify, modify_apply]

theorem close_keep {B : Type} {π : ResourceScope → B}
    (h : ∀ s, π { s with rc := s.rc.zero, done := true } = π s) (id x : ScopeId) :
    π ((σ.close id).scopes x) = π (σ.scopes x) :=
  modify_keep h _ _

/-- A closed node holds nothing by its edges any more. -/
theorem gap_close_node (hn : n < σ.next) (hlive : (σ.scopes (.node n)).done = false) :
    (σ.close (.node n)).gap S = σ.gap S + (σ.scopes (.node n)).edges.count S := by
  have htotal : total σ.next ((σ.close (.node n)).edgeRefs S) =
      total σ.next (σ.edgeRefs S) - (σ.scopes (.node n)).edges.count S := by
    rw [total_change hn (w := σ.edgeRefs S)]
    · simp [edgeRefs, close_scopes, hlive]
    · intro m _ hm; simp [edgeRefs, close_scopes, hm]
  have hspans : (σ.close (.node n)).spanRefs S = σ.spanRefs S := by
    funext k; simp [spanRefs, close_scopes]
  have href := close_keep σ (π := refCnt) (fun _ => rfl) (.node n) S
  have hspan := close_keep σ (π := spanID) (fun _ => rfl) (.node n) S
  have hnext : (σ.close (.node n)).next = σ.next := rfl
  have hviews : (σ.close (.node n)).views = σ.views := rfl
  simp only [gap, due, hnext, hviews, hspan, hspans]
  omega

/-- A closed span no longer holds its owner. -/
theorem gap_close_span (hk : k < (σ.scopes o).spanID)
    (hlive : (σ.scopes (.span o (k + 1))).done = false) :
    (σ.close (.span o (k + 1))).gap S = σ.gap S + if S = o then 1 else 0 := by
  have hrefs : (σ.close (.span o (k + 1))).edgeRefs S = σ.edgeRefs S := by
    funext n; simp [edgeRefs, close_scopes]
  have href := close_keep σ (π := refCnt) (fun _ => rfl) (.span o (k + 1)) S
  have hspan := close_keep σ (π := spanID) (fun _ => rfl) (.span o (k + 1)) S
  have hspans : total (σ.scopes S).spanID ((σ.close (.span o (k + 1))).spanRefs S) =
      total (σ.scopes S).spanID (σ.spanRefs S) - if S = o then 1 else 0 := by
    split
    · rename_i hS
      subst hS
      rw [total_change hk (w := σ.spanRefs S)]
      · simp [spanRefs, close_scopes, hlive]
      · intro j _ hj; simp [spanRefs, close_scopes, hj]
    · rename_i hS
      rw [total_congr, sub_zero]
      intro j _; simp [spanRefs, close_scopes, hS]
  have hnext : (σ.close (.span o (k + 1))).next = σ.next := rfl
  have hviews : (σ.close (.span o (k + 1))).views = σ.views := rfl
  simp only [gap, due, hnext, hviews, hspan, hrefs]
  omega

end gap

/-! ## Which scopes exist -/

/-- A node is created by the manager, a span by its owner. -/
def Born (σ : Manager) : ScopeId → Prop
  | .node n => n < σ.next
  | .span o k => 1 ≤ k ∧ k ≤ (σ.scopes o).spanID

/-- A scope that was not created is closed and has no spans. -/
def Births (σ : Manager) : Prop := ∀ x, ¬ σ.Born x → σ.marks x = (true, 0)

section births

variable {σ : Manager}

section

variable (h : σ.Births)
include h

theorem Births.congr (hnext : σ'.next = σ.next) (hmarks : σ'.marks = σ.marks) :
    σ'.Births := by
  intro x hx
  rw [hmarks]
  refine h x fun hb => hx ?_
  cases x with
  | node n => exact lt_of_lt_of_eq hb hnext.symm
  | span o k => exact ⟨hb.1, hb.2.trans_eq (congrArg snd (congrFun hmarks o)).symm⟩

theorem Births.born_of_live (hx : (σ.scopes x).done = false) : σ.Born x := by
  by_contra hb
  have hdone : (σ.scopes x).done = true := congrArg fst (h x hb)
  rw [hx] at hdone; cases hdone

theorem Births.newResourceScope (limit : Limit) (edges : List ScopeId) (name : ScopeName) :
    (σ.newResourceScope limit edges name).Births := by
  have hmarks := marks_newResourceScope σ limit edges name
  intro x hx
  by_cases hxf : x = σ.fresh
  · subst hxf; exact absurd (σ.next.lt_succ_self) hx
  · rw [hmarks, update_of_ne hxf]
    refine h x fun hb => hx ?_
    cases x with
    | node n => exact Nat.lt_succ_of_lt hb
    | span o k =>
      refine ⟨hb.1, ?_⟩
      -- a fresh scope had no spans before it was created
      have ho : o ≠ σ.fresh := by
        rintro rfl
        have := congrArg snd (h σ.fresh (lt_irrefl σ.next))
        have hk : k ≤ (σ.scopes σ.fresh).spanID := hb.2
        simp only [marks] at this
        have := hb.1; omega
      have hspan : ((σ.newResourceScope limit edges name).scopes o).spanID = (σ.scopes o).spanID := by
        have := congrArg snd (congrFun hmarks o)
        rwa [update_of_ne ho] at this
      rw [hspan]; exact hb.2

theorem Births.doneUnlocked (id : ScopeId) : (σ.doneUnlocked id).Births := by
  have hmarks := marks_doneUnlocked σ id
  have hspan : ∀ o, ((σ.doneUnlocked id).scopes o).spanID = (σ.scopes o).spanID := fun o =>
    doneUnlocked_keep uncounted_spanID (fun _ => rfl) (fun _ => rfl) σ.scopes id o
  intro x hx
  have hx' : ¬ σ.Born x := by
    intro hb
    apply hx
    cases x with
    | node n => exact hb
    | span o k => exact ⟨hb.1, (hspan o).symm ▸ hb.2⟩
  rw [hmarks]
  by_cases hid : x = id
  · subst hid
    rw [update_self]
    have hnone : (σ.scopes x).spanID = 0 := congrArg snd (h x hx')
    rw [hnone]
  · rw [update_of_ne hid]; exact h x hx'

/-- A span that is open was begun by its owner, and counts from one. -/
theorem Births.span_live (hlive : (σ.scopes (.span o k)).done = false) :
    ∃ j, k = j + 1 ∧ j < (σ.scopes o).spanID := by
  obtain ⟨hpos, hle⟩ := h.born_of_live hlive
  exact ⟨k - 1, by omega, by omega⟩

/-- Closing a scope drops the references it holds, and nothing else. -/
theorem gap_doneUnlocked (S : ScopeId) : (σ.doneUnlocked id).gap S = σ.gap S := by
  by_cases hdone : (σ.scopes id).done
  · simp [doneUnlocked, Graph.doneUnlocked, hdone]
  have hlive : (σ.scopes id).done = false := by simpa using hdone
  cases id with
  | node n =>
    have hn : n < σ.next := h.born_of_live hlive
    set τ := σ.releaseEdges (σ.scopes (.node n)).edges (σ.scopes (.node n)).rc.stat with hτ
    have hclose : σ.doneUnlocked (.node n) = τ.close (.node n) := by
      simp only [doneUnlocked, Graph.doneUnlocked, hlive]; rfl
    have hmarks : (τ.scopes (.node n)).done = false :=
      (congrArg fst (congrFun (marks_releaseEdges σ) _)).trans hlive
    have hedges : (τ.scopes (.node n)).edges = (σ.scopes (.node n)).edges :=
      congrFun (congrArg Skeleton.edges (skel_releaseEdges σ)) n
    rw [hclose, gap_close_node τ S hn hmarks, hedges, gap_releaseEdges]
    omega
  | span o k =>
    obtain ⟨j, rfl, hj⟩ := h.span_live hlive
    set st := (σ.scopes (.span o (j + 1))).rc.stat
    set τ : Manager := { σ with scopes := σ.scopes.releaseResources o st } with hτ
    have hclose : σ.doneUnlocked (.span o (j + 1)) = (τ.decRef o).close (.span o (j + 1)) := by
      simp only [doneUnlocked, Graph.doneUnlocked, hlive]; rfl
    have hτmarks : τ.marks = σ.marks :=
      marks_scopes σ (fun _ => release_keep uncounted_done _ _ _)
        fun _ => release_keep uncounted_spanID _ _ _
    have hτgap : τ.gap S = σ.gap S :=
      gap_of_counters (skel_scopes σ (fun _ => release_keep uncounted_name _ _ _)
        fun _ => release_keep uncounted_edges _ _ _) hτmarks rfl
        (fun _ => release_keep uncounted_refCnt _ _ _) S
    have hmarks : (τ.decRef o).marks = σ.marks := (marks_decRef τ).trans hτmarks
    have hspan : ((τ.decRef o).scopes o).spanID = (σ.scopes o).spanID :=
      congrArg snd (congrFun hmarks o)
    have hopen : ((τ.decRef o).scopes (.span o (j + 1))).done = false :=
      (congrArg fst (congrFun hmarks _)).trans hlive
    rw [hclose, gap_close_span (τ.decRef o) S (hspan ▸ hj) hopen, gap_decRef]
    omega

end

/-! ### Spans -/

variable {id : ScopeId}

theorem beginSpan_of_done (h : (σ.scopes id).done = true) :
    (σ.scopes.beginSpan id).1 = σ.scopes := by
  simp [beginSpan, h]

theorem beginSpan_scopes (h : (σ.scopes id).done = false) :
    (σ.scopes.beginSpan id).1 x =
      if x = .span id ((σ.scopes id).spanID + 1) then
        { rc := { limit := (σ.scopes id).rc.limit },
          name := .span (σ.scopes id).name ((σ.scopes id).spanID + 1) }
      else if x = id then
        { σ.scopes id with refCnt := (σ.scopes id).refCnt + 1, spanID := (σ.scopes id).spanID + 1 }
      else σ.scopes x := by
  simp [beginSpan, h, update_apply, modify_apply]

/-- A scope is not a span of itself. -/
theorem span_ne : span o k ≠ o := by
  intro h
  exact absurd (congrArg sizeOf h) (by simp; omega)

/-- A new span holds its owner. -/
theorem gap_beginSpan {S : ScopeId} (hS : S ≠ .span id ((σ.scopes id).spanID + 1)) :
    { σ with scopes := (σ.scopes.beginSpan id).1 }.gap S = σ.gap S := by
  cases hdone : (σ.scopes id).done with
  | true => rw [beginSpan_of_done hdone]
  | false =>
    set τ : Manager := { σ with scopes := (σ.scopes.beginSpan id).1 } with hτ
    have hscope : ∀ x, τ.scopes x = _ := fun x => beginSpan_scopes hdone
    have hrefs : τ.edgeRefs S = σ.edgeRefs S := by
      funext m
      have hm : node m ≠ .span id ((σ.scopes id).spanID + 1) := by simp
      simp only [edgeRefs, hscope, if_neg hm]
      split <;> rename_i hid <;> simp [hid]
    -- no span but the new one is opened or closed
    have hspans : ∀ k, span S (k + 1) ≠ .span id ((σ.scopes id).spanID + 1) →
        τ.spanRefs S k = σ.spanRefs S k := by
      intro k hk
      simp only [spanRefs, hscope, if_neg hk]
      split <;> rename_i hid <;> simp [hid]
    have hsum : total (τ.scopes S).spanID (τ.spanRefs S) - (τ.scopes S).refCnt =
        total (σ.scopes S).spanID (σ.spanRefs S) - (σ.scopes S).refCnt := by
      by_cases hid : S = id
      · subst hid
        have hold : total (σ.scopes S).spanID (τ.spanRefs S) =
            total (σ.scopes S).spanID (σ.spanRefs S) :=
          total_congr fun k hk => hspans k (by simp; omega)
        have hnew : τ.spanRefs S (σ.scopes S).spanID = 1 := by simp [spanRefs, hscope]
        have hself : τ.scopes S = { σ.scopes S with
            refCnt := (σ.scopes S).refCnt + 1, spanID := (σ.scopes S).spanID + 1 } := by
          rw [hscope, if_neg hS, if_pos rfl]
        simp only [hself, total_succ]
        omega
      · have hself : τ.scopes S = σ.scopes S := by rw [hscope, if_neg hS, if_neg hid]
        rw [hself, total_congr fun k _ => hspans k (by simp [hid])]
    have hnext : τ.next = σ.next := rfl
    have hviews : τ.views = σ.views := rfl
    simp only [gap, due, hnext, hviews, hrefs]
    omega

theorem Births.beginSpan (h : σ.Births) :
    { σ with scopes := (σ.scopes.beginSpan id).1 }.Births := by
  cases hdone : (σ.scopes id).done with
  | true => rw [beginSpan_of_done hdone]; exact h
  | false =>
    set τ : Manager := { σ with scopes := (σ.scopes.beginSpan id).1 } with hτ
    have hscope : ∀ x, τ.scopes x = _ := fun x => beginSpan_scopes hdone
    have hself : (τ.scopes id).spanID = (σ.scopes id).spanID + 1 := by
      rw [hscope, if_neg span_ne.symm, if_pos rfl]
    have hgrow : ∀ o, (σ.scopes o).spanID ≤ (τ.scopes o).spanID := by
      intro o
      by_cases hnew : o = .span id ((σ.scopes id).spanID + 1)
      · -- it was not created before
        have hnot : ¬ σ.Born o := by rintro hb; subst hnew; exact absurd hb.2 (by omega)
        have hnone : (σ.scopes o).spanID = 0 := congrArg snd (h o hnot)
        omega
      · by_cases hid : o = id
        · subst hid; omega
        · rw [hscope, if_neg hnew, if_neg hid]
    have hborn : ∀ x, σ.Born x → τ.Born x := by
      intro x hb
      cases x with
      | node n => exact hb
      | span o k => exact ⟨hb.1, hb.2.trans (hgrow o)⟩
    intro x hx
    have hnew : x ≠ .span id ((σ.scopes id).spanID + 1) := by
      rintro rfl
      exact hx ⟨by omega, hself.ge⟩
    have hid : x ≠ id := by
      rintro rfl
      exact hx (hborn x (h.born_of_live hdone))
    have hkeep : τ.scopes x = σ.scopes x := by rw [hscope, if_neg hnew, if_neg hid]
    have hmarks : τ.marks x = σ.marks x := by simp [marks, hkeep]
    rw [hmarks]
    exact h x fun hb => hx (hborn x hb)

end births

end Manager

end Dep2p.Rcmgr
