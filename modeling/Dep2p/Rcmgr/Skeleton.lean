import Dep2p.Rcmgr.Manager

/- Who is attached to whom: the manager without its counters.

   The skeleton of a state keeps the tables, the names and the edges of the
   scopes, and drops counters, reference counts and the marks of closed scopes.
   Most primitive steps do not change it at all, which is said here once for each
   of them; the others change it in one place. `Shape` is what holds of the
   skeleton of every reachable state, whatever calls were made: the tables name
   scopes of the right kind, and the edges of a connection or stream are
   determined by what it has been associated with. -/
namespace Dep2p.Rcmgr

open Lib Function ResourceScope Rcmgr.Graph Store

/-! ## Fields that do not depend on the counters -/

/-- A reading of a scope that does not look at the counters. -/
def Uncounted {B : Type} (π : ResourceScope → B) : Prop :=
  ∀ (s : ResourceScope) (rc : Resources), π { s with rc } = π s

theorem uncounted_edges : Uncounted edges := fun _ _ => rfl
theorem uncounted_name : Uncounted name := fun _ _ => rfl
theorem uncounted_done : Uncounted done := fun _ _ => rfl
theorem uncounted_refCnt : Uncounted refCnt := fun _ _ => rfl
theorem uncounted_spanID : Uncounted spanID := fun _ _ => rfl

variable {f : ResourceScope → ResourceScope} {id : ScopeId} {st : ScopeStat} {edges : List ScopeId}

namespace Graph

variable {B : Type} {π : ResourceScope → B}

theorem modify_keep (hf : ∀ s, π (f s) = π s) (g : Graph)
    (x : ScopeId) : π (g.modify id f x) = π (g x) := by
  rw [modify_apply]
  split
  · rename_i h; rw [h, hf]
  · rfl

variable (hπ : Uncounted π)
include hπ

theorem forChild_keep (f : Resources → Resources) (s : ResourceScope) : π (s.forChild f) = π s := by
  simp only [forChild]
  split
  · rfl
  · exact hπ s _

theorem reserveForChild_keep (s : ResourceScope) :
    π (s.reserveForChild st).1 = π s := by
  simp only [reserveForChild]
  split
  · rfl
  · split <;> exact hπ s _

theorem acquireForChild_keep {r : Reservation} {s s' : ResourceScope}
    (h : s.acquireForChild r = .ok s') : π s' = π s := by
  simp only [acquireForChild] at h
  split at h
  · cases h
  · split at h
    · cases h
    · cases h; exact hπ s _

theorem takeEach_keep (r : Reservation) (ks : List ScopeId) (g : Graph) (n : Nat) (x : ScopeId) :
    π ((takeEach (·.acquireForChild r) ks g n).1 x) = π (g x) := by
  induction ks generalizing g n with
  | nil => rfl
  | cons k ks ih =>
    simp only [takeEach]
    split
    · rfl
    rename_i s hs
    rw [ih, update_apply]
    split
    · rename_i hx; rw [hx]; exact acquireForChild_keep hπ hs
    · rfl

theorem acquireForEdges_keep (r : Reservation) (g : Graph) (x : ScopeId) :
    π ((acquireForEdges r edges g).1 x) = π (g x) := by
  have hrun := takeEach_keep hπ r edges g 0 x
  simp only [acquireForEdges, allOrNothing]
  split
  · rename_i g' n heq; rw [heq] at hrun; exact hrun
  · rename_i g' n err heq
    rw [heq] at hrun
    exact (modifyEach_keep (forChild_keep hπ _) _ _ _).trans hrun

theorem acquireAt_keep (r : Reservation) {rest : Graph → Graph × Option RcErr}
    (hrest : ∀ g x, π ((rest g).1 x) = π (g x)) (g : Graph) (x : ScopeId) :
    π ((acquireAt r id rest g).1 x) = π (g x) := by
  simp only [acquireAt]
  split
  · rfl
  split
  · rfl
  rename_i rc hrc
  have hafter := (hrest (g.modify id fun s => { s with rc }) x).trans
    (modify_keep (fun s => hπ s rc) g x)
  split
  · rename_i g' heq; rw [heq] at hafter; exact hafter
  · rename_i g' err heq
    rw [heq] at hafter
    exact (modify_keep (fun s => hπ s _) _ x).trans hafter

/-- A reservation changes counters only. -/
theorem acquire_keep (r : Reservation) (g : Graph) (x : ScopeId) :
    π ((acquire r id g).1 x) = π (g x) := by
  induction id generalizing g x with
  | node n => exact acquireAt_keep hπ r (fun g x => acquireForEdges_keep hπ r g x) g x
  | span owner k ih => exact acquireAt_keep hπ r ih g x

/-- A release changes counters only. -/
theorem release_keep (f : Resources → Resources) (g : Graph) (x : ScopeId) :
    π (g.release f id x) = π (g x) := by
  induction id generalizing g with
  | node n =>
    simp only [release]
    split
    · rfl
    · exact (modifyEach_keep (forChild_keep hπ f) _ _ _).trans
        (modify_keep (fun s => hπ s _) g x)
  | span owner k ih =>
    simp only [release]
    split
    · rfl
    · exact (ih _).trans (modify_keep (fun s => hπ s _) g x)

omit hπ in
theorem detach_keep (hπ : Uncounted π) (href : ∀ s : ResourceScope, π s.decRef = π s) (g : Graph)
    (st : ScopeStat) (id x : ScopeId) : π (g.detach st id x) = π (g x) := by
  cases id with
  | node n => exact Store.modifyEach_keep (fun s => (href _).trans (forChild_keep hπ _ s)) _ g x
  | span owner k => exact (modify_keep href _ x).trans (release_keep hπ _ g x)

omit hπ in
/-- Closing a scope changes counters, reference counts and the mark of the scope. -/
theorem doneUnlocked_keep (hπ : Uncounted π) (href : ∀ s : ResourceScope, π s.decRef = π s)
    (hdone : ∀ s : ResourceScope, π { s with done := true } = π s) (g : Graph) (id x : ScopeId) :
    π (g.doneUnlocked id x) = π (g x) := by
  have hdetach := detach_keep hπ href g (g id).rc.stat id x
  simp only [doneUnlocked]
  split
  · rfl
  · refine (modify_keep (fun s => ?_) _ x).trans hdetach
    exact (hdone { s with rc := s.rc.zero }).trans (hπ s _)

end Graph

/-! ## The skeleton -/

/-- The tables of the manager, and the names and edges of its nodes. -/
@[ext]
structure Skeleton where
  next : Nat
  svc : String → Option ServiceScope
  proto : ProtocolID → Option ProtocolScope
  peer : PeerID → Option PeerScope
  peers : ScopeId → PeerID → Option ScopeId
  conns : ScopeId → Option ConnectionScope
  streams : ScopeId → Option StreamScope
  name : Nat → ScopeName
  edges : Nat → List ScopeId

namespace Skeleton

def setEdges (κ : Skeleton) : ScopeId → List ScopeId → Skeleton
  | .node n, edges => { κ with edges := Function.update κ.edges n edges }
  | .span _ _, _ => κ

def setConn (κ : Skeleton) (id : ScopeId) (c : ConnectionScope) : Skeleton :=
  { κ with conns := Function.update κ.conns id (some c) }

def setStream (κ : Skeleton) (id : ScopeId) (s : StreamScope) : Skeleton :=
  { κ with streams := Function.update κ.streams id (some s) }

def enterService (κ : Skeleton) (svc : String) (s : Option ServiceScope) : Skeleton :=
  { κ with svc := Function.update κ.svc svc s }

def enterProtocol (κ : Skeleton) (proto : ProtocolID) (s : Option ProtocolScope) : Skeleton :=
  { κ with proto := Function.update κ.proto proto s }

def enterPeer (κ : Skeleton) (p : PeerID) (s : Option PeerScope) : Skeleton :=
  { κ with peer := Function.update κ.peer p s }

def enterSubPeer (κ : Skeleton) (owner : ScopeId) (p : PeerID) (ps : Option ScopeId) : Skeleton :=
  { κ with peers := Function.update κ.peers owner (Function.update (κ.peers owner) p ps) }

/-- One more node. -/
def alloc (κ : Skeleton) (edges : List ScopeId) (name : ScopeName) : Skeleton :=
  { κ with
    next := κ.next + 1
    name := Function.update κ.name κ.next name
    edges := Function.update κ.edges κ.next edges }

end Skeleton

namespace Manager

def skel (σ : Manager) : Skeleton :=
  { next := σ.next, svc := σ.svc, proto := σ.proto, peer := σ.peer, peers := σ.peers,
    conns := σ.conns, streams := σ.streams, name := fun n => (σ.scopes (.node n)).name,
    edges := fun n => (σ.scopes (.node n)).edges }

section skel

variable (σ : Manager)

/-- A change of the scopes that keeps names and edges. -/
theorem skel_scopes {g : Graph} (hname : ∀ n, (g (.node n)).name = (σ.scopes (.node n)).name)
    (hedges : ∀ n, (g (.node n)).edges = (σ.scopes (.node n)).edges) :
    { σ with scopes := g }.skel = σ.skel := by
  ext1 <;> first | rfl | skip
  · funext n; exact hname n
  · funext n; exact hedges n

theorem skel_modify
    (hname : ∀ s, (f s).name = s.name) (hedges : ∀ s, (f s).edges = s.edges) :
    (σ.modify id f).skel = σ.skel :=
  skel_scopes σ (fun _ => modify_keep hname _ _) fun _ => modify_keep hedges _ _

@[simp] theorem skel_incRef : (σ.incRef id).skel = σ.skel :=
  skel_modify σ (fun _ => rfl) fun _ => rfl

@[simp] theorem skel_decRef (id : ScopeId) : (σ.decRef id).skel = σ.skel :=
  skel_modify σ (fun _ => rfl) fun _ => rfl

@[simp] theorem skel_releaseForChild :
    (σ.releaseForChild id st).skel = σ.skel :=
  skel_modify σ (forChild_keep uncounted_name _) (forChild_keep uncounted_edges _)

@[simp] theorem skel_reserveForChild (id : ScopeId) (st : ScopeStat) :
    (σ.reserveForChild id st).1.skel = σ.skel :=
  skel_modify σ (reserveForChild_keep uncounted_name)
    (reserveForChild_keep uncounted_edges)

@[simp] theorem skel_releaseEdges :
    (σ.releaseEdges edges st).skel = σ.skel := by
  refine skel_scopes σ (fun n => ?_) fun n => ?_
  · exact modifyEach_keep (π := name)
      (f := fun s => (s.releaseForChild st).decRef) (forChild_keep uncounted_name _) _ _ _
  · exact modifyEach_keep (π := ResourceScope.edges)
      (f := fun s => (s.releaseForChild st).decRef) (forChild_keep uncounted_edges _) _ _ _

@[simp] theorem skel_acquire (r : Reservation) (id : ScopeId) : (σ.acquire r id).1.skel = σ.skel :=
  skel_scopes σ (fun _ => acquire_keep uncounted_name r _ _)
    fun _ => acquire_keep uncounted_edges r _ _

@[simp] theorem skel_doneUnlocked : (σ.doneUnlocked id).skel = σ.skel :=
  skel_scopes σ (fun _ => doneUnlocked_keep uncounted_name (fun _ => rfl) (fun _ => rfl) _ _ _)
    fun _ => doneUnlocked_keep uncounted_edges (fun _ => rfl) (fun _ => rfl) _ _ _

@[simp] theorem skel_setConnLimiter (cl : ConnLimiter) : (σ.setConnLimiter cl).skel = σ.skel := rfl

@[simp] theorem skel_nextConnId : σ.nextConnId.skel = σ.skel := rfl

@[simp] theorem skel_nextStreamId : σ.nextStreamId.skel = σ.skel := rfl

@[simp] theorem skel_enterService (svc : String) (s : Option ServiceScope) :
    (σ.enterService svc s).skel = σ.skel.enterService svc s := rfl

@[simp] theorem skel_enterProtocol (proto : ProtocolID) (s : Option ProtocolScope) :
    (σ.enterProtocol proto s).skel = σ.skel.enterProtocol proto s := rfl

@[simp] theorem skel_enterPeer (p : PeerID) (s : Option PeerScope) :
    (σ.enterPeer p s).skel = σ.skel.enterPeer p s := rfl

@[simp] theorem skel_enterSubPeer (owner : ScopeId) (p : PeerID) (ps : Option ScopeId) :
    (σ.enterSubPeer owner p ps).skel = σ.skel.enterSubPeer owner p ps := rfl

@[simp] theorem skel_setConn (c : ConnectionScope) :
    (σ.setConn id c).skel = σ.skel.setConn id c := rfl

@[simp] theorem skel_setStream (s : StreamScope) :
    (σ.setStream id s).skel = σ.skel.setStream id s := rfl

@[simp] theorem skel_setEdges :
    (σ.setEdges id edges).skel = σ.skel.setEdges id edges := by
  have hname : ∀ x, ((σ.setEdges id edges).scopes x).name = (σ.scopes x).name := by
    intro x
    exact modify_keep
      (f := fun s => { s with edges }) (fun _ => rfl) _ _
  cases id with
  | node n =>
    ext1 <;> first | rfl | skip
    · funext m; exact hname _
    · funext m
      simp only [skel, setEdges, modify, Skeleton.setEdges, modify_apply, update_apply,
        ScopeId.node.injEq]
      split <;> rfl
  | span owner k =>
    refine skel_scopes σ (fun _ => hname _) fun n => ?_
    exact congrArg _ (modify_of_ne (by simp) _ _)

/-- The scopes there were get references from a new one. -/
theorem newResourceScope_keep {B : Type} {π : ResourceScope → B}
    (hπ : ∀ s, π s.incRef = π s) (limit : Limit)
    (name : ScopeName) {x : ScopeId} (hx : x ≠ σ.fresh) :
    π ((σ.newResourceScope limit edges name).scopes x) = π (σ.scopes x) := by
  simp only [newResourceScope, Graph.newResourceScope, update_of_ne hx]
  exact modifyEach_keep hπ _ _ _

@[simp] theorem skel_newResourceScope (limit : Limit) (name : ScopeName) :
    (σ.newResourceScope limit edges name).skel = σ.skel.alloc edges name := by
  ext1 <;> first | rfl | skip
  all_goals
    funext m
    simp only [skel, newResourceScope, Graph.newResourceScope, Skeleton.alloc, update_apply, fresh,
      ScopeId.node.injEq]
    split
    · rfl
    · refine modifyEach_keep (fun _ => ?_) _ _ _
      rfl

@[simp] theorem skel_done : (σ.done id).skel = σ.skel := by
  simp only [done, connDone]
  split
  · split
    · rfl
    · split <;> simp
  · simp

theorem skel_beginSpan (id : ScopeId) : { σ with scopes := (σ.scopes.beginSpan id).1 }.skel = σ.skel := by
  have hkeep : ∀ {B : Type} {π : ResourceScope → B} (n : Nat),
      (∀ (s : ResourceScope) (k : Nat), π { s with refCnt := s.refCnt + 1, spanID := k } = π s) →
      π ((σ.scopes.beginSpan id).1 (.node n)) = π (σ.scopes (.node n)) := by
    intro B π n hπ
    simp only [beginSpan]
    split
    · rfl
    · simp only [update_apply]
      exact modify_keep (fun s => hπ s _) _ _
  exact skel_scopes σ (fun n => hkeep n fun _ _ => rfl)
    fun n => hkeep n fun _ _ => rfl

theorem skel_releaseMemory (size : Int64) :
    { σ with scopes := σ.scopes.releaseMemory id size }.skel = σ.skel :=
  skel_scopes σ (fun _ => release_keep uncounted_name _ _ _)
    fun _ => release_keep uncounted_edges _ _ _

end skel

end Manager

end Dep2p.Rcmgr
