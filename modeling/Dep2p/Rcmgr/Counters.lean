import Dep2p.Rcmgr.Manager

/- Invariants of single counters through whole runs.

   Whatever path an operation takes, a scope's counters change only by an
   accepted reservation, by the release that undoes one, by the reservation or
   release of another scope's stat, by a release of memory, and by being zeroed.
   A property of `Resources` kept by these six changes (`CounterInvariant`) and
   true of the empty counters under every limit the limiter hands out therefore
   holds of every scope after every run. -/
namespace Dep2p.Rcmgr

open Lib

/-- What is reserved is not negative; a negative size is refused everywhere. -/
def Reservation.Nonneg : Reservation → Prop
  | .memory size _ => 0 ≤ size.toInt
  | _ => True

instance (r : Reservation) : Decidable r.Nonneg := by
  cases r <;> simp only [Reservation.Nonneg] <;> infer_instance

variable {r : Reservation}

theorem Reservation.take_of_neg (h : ¬ r.Nonneg) (rc : Resources) :
    ∃ err, r.take rc = .error err := by
  cases r with
  | memory size prio =>
    have hs : size < 0 := by rw [lt_zero_iff]; simp only [Nonneg] at h; omega
    exact ⟨.negativeMemory size, by simp [take, Resources.reserveMemory, Resources.checkMemory, hs]⟩
  | stream dir | conn dir usefd => exact absurd trivial h

/-- A property of counters kept by every change a scope can go through;
`releaseOk` are the sizes of `ReleaseMemory` it is kept by. -/
structure CounterInvariant (P : Resources → Prop) (releaseOk : Int64 → Prop) : Prop where
  take : ∀ {r : Reservation} {rc rc' : Resources}, P rc → r.take rc = .ok rc' → P rc'
  giveBack : ∀ {r : Reservation} {rc : Resources}, r.Nonneg → P rc → P (r.giveBack rc)
  reserve : ∀ {rc child : Resources}, P rc → P child → P (rc.reserve child.stat).1
  release : ∀ {rc child : Resources}, P rc → P child → P (rc.release child.stat)
  releaseMemory : ∀ {rc : Resources} {size : Int64}, releaseOk size → P rc → P (rc.releaseMemory size)
  zero : ∀ {rc : Resources}, P rc → P rc.zero

/-- The property holds of every scope. -/
def Graph.Holds (P : Resources → Prop) (g : Graph) : Prop := ∀ id, P (g id).rc

variable {f : ResourceScope → ResourceScope} {limit : Limit} {id : ScopeId}

namespace Graph

variable {P : Resources → Prop} {releaseOk : Int64 → Prop} {g : Graph}

theorem holds_modify (h : g.Holds P) (hf : ∀ s, P s.rc → P (f s).rc) :
    Holds P (g.modify id f) := by
  intro x
  rw [Store.modify_apply]
  split
  · exact hf _ (h id)
  · exact h x

theorem holds_modifyEach (h : g.Holds P) (ks : List ScopeId) (hf : ∀ s, P s.rc → P (f s).rc) :
    Holds P (.modifyEach f ks g) :=
  fun x => Store.modifyEach_induction hf ks (h x)

variable {f : Resources → Resources}

theorem forChild_rc (hf : ∀ rc, P rc → P (f rc)) (s : ResourceScope)
    (h : P s.rc) : P (s.forChild f).rc := by
  simp only [ResourceScope.forChild]
  split
  · exact h
  · exact hf _ h

variable (hP : CounterInvariant P releaseOk)
include hP

theorem takeEach_holds (r : Reservation) (ks : List ScopeId) (n : Nat) (h : g.Holds P) :
    Holds P (Store.takeEach (·.acquireForChild r) ks g n).1 := by
  induction ks generalizing g n with
  | nil => exact h
  | cons k ks ih =>
    simp only [Store.takeEach]
    split
    · exact h
    rename_i s hs
    refine ih _ fun x => ?_
    rw [Function.update_apply]
    split
    · simp only [ResourceScope.acquireForChild] at hs
      split at hs
      · cases hs
      split at hs
      · cases hs
      · rename_i rc hrc
        cases hs
        exact hP.take (h k) hrc
    · exact h x

theorem acquireForEdges_holds (hr : r.Nonneg) (edges : List ScopeId) (h : g.Holds P) :
    Holds P (acquireForEdges r edges g).1 := by
  have hrun := takeEach_holds hP r edges 0 h
  simp only [acquireForEdges, Store.allOrNothing]
  split
  · rename_i g' n heq; rw [heq] at hrun; exact hrun
  · rename_i g' n err heq
    rw [heq] at hrun
    exact holds_modifyEach hrun _ (forChild_rc fun rc => hP.giveBack hr)

theorem acquireAt_holds (hr : r.Nonneg) {rest : Graph → Graph × Option RcErr}
    (hrest : ∀ g, g.Holds P → Holds P (rest g).1) (h : g.Holds P) :
    Holds P (acquireAt r id rest g).1 := by
  simp only [acquireAt]
  split
  · exact h
  split
  · exact h
  rename_i rc hrc
  have hcharged : Holds P (g.modify id fun s => { s with rc }) := by
    intro x
    rw [Store.modify_apply]
    split
    · exact hP.take (h id) hrc
    · exact h x
  have hafter := hrest _ hcharged
  split
  · rename_i g' heq; rw [heq] at hafter; exact hafter
  · rename_i g' err heq
    rw [heq] at hafter
    exact holds_modify hafter fun s hs => hP.giveBack hr hs

theorem acquire_holds (h : g.Holds P) :
    Holds P (acquire r id g).1 := by
  by_cases hr : r.Nonneg
  · induction id generalizing g with
    | node n => exact acquireAt_holds hP hr (fun g hg => acquireForEdges_holds hP hr _ hg) h
    | span owner k ih => exact acquireAt_holds hP hr (fun g hg => ih hg) h
  · -- nothing is charged, so nothing has to be undone
    obtain ⟨err, herr⟩ := r.take_of_neg hr (g id).rc
    have hself : ∀ rest, (acquireAt r id rest g).1 = g := by
      intro rest
      simp only [acquireAt, herr]
      split <;> rfl
    cases id <;> simp only [acquire, hself] <;> exact h

omit hP in
theorem release_holds (hf : ∀ rc, P rc → P (f rc))
    (h : g.Holds P) : Holds P (g.release f id) := by
  induction id generalizing g with
  | node n =>
    simp only [release]
    split
    · exact h
    · exact holds_modifyEach (holds_modify h fun s => hf s.rc) _ (forChild_rc hf)
  | span owner k ih =>
    simp only [release]
    split
    · exact h
    · exact ih (holds_modify h fun s => hf s.rc)

theorem doneUnlocked_holds (h : g.Holds P) : Holds P (g.doneUnlocked id) := by
  have hrel : ∀ rc, P rc → P (rc.release (g id).rc.stat) := fun rc hrc => hP.release hrc (h id)
  have hdetach : Holds P (g.detach (g id).rc.stat id) := by
    cases id with
    | node n => exact holds_modifyEach h _ (forChild_rc hrel)
    | span owner k => exact holds_modify (release_holds hrel h) fun s hs => hs
  simp only [doneUnlocked]
  split
  · exact h
  · exact holds_modify hdetach fun s hs => hP.zero hs

theorem beginSpan_holds (h : g.Holds P) : Holds P (g.beginSpan id).1 := by
  simp only [beginSpan]
  split
  · exact h
  intro x
  dsimp only
  rw [Function.update_apply]
  split
  · exact hP.zero (h id)
  · refine holds_modify h ?_ x
    intro s hs; exact hs

omit hP in
theorem newResourceScope_holds (hl : P { limit }) (edges : List ScopeId)
    (name : ScopeName) (h : g.Holds P) : Holds P (g.newResourceScope id limit edges name) := by
  intro x
  simp only [newResourceScope, Function.update_apply]
  split
  · exact hl
  · exact holds_modifyEach h edges (f := ResourceScope.incRef) (fun s hs => hs) x

end Graph

/-! ## The operations of the manager -/

/-- The property holds of the empty counters under every limit of the limiter. -/
structure Limiter.Gives (limits : Limiter) (P : Resources → Prop) : Prop where
  system : P { limit := limits.getSystemLimits }
  transient : P { limit := limits.getTransientLimits }
  allowlistedSystem : P { limit := limits.getAllowlistedSystemLimits }
  allowlistedTransient : P { limit := limits.getAllowlistedTransientLimits }
  service : ∀ svc, P { limit := limits.getServiceLimits svc }
  servicePeer : ∀ svc, P { limit := limits.getServicePeerLimits svc }
  protocol : ∀ proto, P { limit := limits.getProtocolLimits proto }
  protocolPeer : ∀ proto, P { limit := limits.getProtocolPeerLimits proto }
  peer : ∀ p, P { limit := limits.getPeerLimits p }
  stream : ∀ p, P { limit := limits.getStreamLimits p }
  conn : P { limit := limits.getConnLimits }

namespace Manager

/-- The property holds of every scope, and will hold of new ones. -/
structure Holds (P : Resources → Prop) (σ : Manager) : Prop where
  scopes : σ.scopes.Holds P
  limits : σ.limits.Gives P

variable {P : Resources → Prop} {releaseOk : Int64 → Prop} {σ : Manager} {p : PeerID}

section

variable (h : σ.Holds P)
include h

theorem Holds.setConnLimiter (cl : ConnLimiter) : (σ.setConnLimiter cl).Holds P :=
  ⟨h.scopes, h.limits⟩

theorem Holds.nextConnId : σ.nextConnId.Holds P := ⟨h.scopes, h.limits⟩

theorem Holds.nextStreamId : σ.nextStreamId.Holds P := ⟨h.scopes, h.limits⟩

theorem Holds.modify (hf : ∀ s, P s.rc → P (f s).rc) : (σ.modify id f).Holds P :=
  ⟨Graph.holds_modify h.scopes hf, h.limits⟩

theorem Holds.incRef (id : ScopeId) : (σ.incRef id).Holds P :=
  h.modify fun _ hs => hs

theorem Holds.decRef (id : ScopeId) : (σ.decRef id).Holds P :=
  h.modify fun _ hs => hs

theorem Holds.setEdges (edges : List ScopeId) : (σ.setEdges id edges).Holds P :=
  h.modify fun _ hs => hs

theorem Holds.setConn (id : ScopeId) (c : ConnectionScope) :
    (σ.setConn id c).Holds P := ⟨h.scopes, h.limits⟩

theorem Holds.setStream (id : ScopeId) (s : StreamScope) :
    (σ.setStream id s).Holds P := ⟨h.scopes, h.limits⟩

theorem Holds.newResourceScope (hl : P { limit }) (edges : List ScopeId) (name : ScopeName) :
    (σ.newResourceScope limit edges name).Holds P :=
  ⟨Graph.newResourceScope_holds hl edges name h.scopes, h.limits⟩

end

theorem newResourceManager_holds {limits : Limiter} (hl : limits.Gives P) (cl : ConnLimiter)
    (al : Allowlist) (stickyProto : ProtocolID → Bool) (stickyPeer : PeerID → Bool) :
    (newResourceManager limits cl al stickyProto stickyPeer).Holds P := by
  have hblank : (blank limits cl al stickyProto stickyPeer).Holds P := ⟨fun _ => hl.system, hl⟩
  have h₁ := (hblank.newResourceScope hl.system [] .system).incRef system
  have h₂ := (h₁.newResourceScope hl.transient [system] .transient).incRef transient
  have h₃ := (h₂.newResourceScope hl.allowlistedSystem [] .allowlistedSystem).incRef
    allowlistedSystem
  exact (h₃.newResourceScope hl.allowlistedTransient _ _).incRef _

section

variable (h : σ.Holds P)
include h

theorem Holds.lookupService (svc : String) : (σ.lookupService svc).1.Holds P := by
  simp only [Manager.lookupService]
  split
  · exact h
  · have hnew := h.newResourceScope (h.limits.service svc) [system] (.service svc)
    exact ⟨hnew.scopes, hnew.limits⟩

theorem Holds.getServiceScope (svc : String) : (σ.getServiceScope svc).1.Holds P :=
  (h.lookupService svc).incRef _

theorem Holds.lookupProtocol (proto : ProtocolID) : (σ.lookupProtocol proto).1.Holds P := by
  simp only [Manager.lookupProtocol]
  split
  · exact h
  · have hnew := h.newResourceScope (h.limits.protocol proto) [system] (.protocol proto)
    exact ⟨hnew.scopes, hnew.limits⟩

theorem Holds.getProtocolScope (proto : ProtocolID) : (σ.getProtocolScope proto).1.Holds P :=
  (h.lookupProtocol proto).incRef _

theorem Holds.lookupPeer : (σ.lookupPeer p).1.Holds P := by
  simp only [Manager.lookupPeer]
  split
  · exact h
  · have hnew := h.newResourceScope (h.limits.peer p) [system] (.peer p)
    exact ⟨hnew.scopes, hnew.limits⟩

theorem Holds.getPeerScope (p : PeerID) : (σ.getPeerScope p).1.Holds P :=
  h.lookupPeer.incRef _

theorem Holds.lookupSubPeer (owner : ScopeId) (hl : P { limit }) (name : ScopeName) :
    (σ.lookupSubPeer owner limit name p).1.Holds P := by
  simp only [Manager.lookupSubPeer]
  split
  · exact h
  · have hnew := h.newResourceScope hl [] name
    exact ⟨hnew.scopes, hnew.limits⟩

theorem Holds.getServicePeerScope (s : ServiceScope) (p : PeerID) :
    (σ.getServicePeerScope s p).1.Holds P :=
  (h.lookupSubPeer s.scope (h.limits.servicePeer s.service) _).incRef _

theorem Holds.getProtocolPeerScope (s : ProtocolScope) (p : PeerID) :
    (σ.getProtocolPeerScope s p).1.Holds P :=
  (h.lookupSubPeer s.scope (h.limits.protocolPeer s.proto) _).incRef _

end

section invariant

variable (hP : CounterInvariant P releaseOk)
include hP

/-- A stat of counters with the property. -/
def StatOf (P : Resources → Prop) (st : ScopeStat) : Prop := ∃ rc, P rc ∧ rc.stat = st

section

variable (h : σ.Holds P)
include h

omit hP in
theorem Holds.statOf (id : ScopeId) : StatOf P (σ.stat id) :=
  ⟨_, h.scopes id, rfl⟩

variable {st : ScopeStat}

theorem Holds.releaseForChild (hst : StatOf P st) :
    (σ.releaseForChild id st).Holds P := by
  obtain ⟨child, hchild, rfl⟩ := hst
  exact h.modify (Graph.forChild_rc fun _ hrc => hP.release hrc hchild)

theorem Holds.reserveForChild (hst : StatOf P st) {τ : Manager} {err : Option RcErr}
    (heq : σ.reserveForChild id st = (τ, err)) : τ.Holds P := by
  obtain ⟨child, hchild, rfl⟩ := hst
  obtain rfl : (σ.reserveForChild id child.stat).1 = τ := congrArg Prod.fst heq
  refine h.modify fun s hs => ?_
  have hr := hP.reserve hs hchild
  simp only [ResourceScope.reserveForChild]
  split
  · exact hs
  · split <;> rename_i heq <;> rw [heq] at hr <;> exact hr

theorem Holds.doneUnlocked : (σ.doneUnlocked id).Holds P :=
  ⟨Graph.doneUnlocked_holds hP h.scopes, h.limits⟩

theorem Holds.done (id : ScopeId) : (σ.done id).Holds P := by
  simp only [Manager.done]
  split
  · simp only [connDone]
    split
    · exact h
    · split
      · exact h.doneUnlocked hP
      · exact (h.setConnLimiter _).doneUnlocked hP
  · exact h.doneUnlocked hP

theorem Holds.acquire (r : Reservation) (id : ScopeId) : (σ.acquire r id).1.Holds P :=
  ⟨Graph.acquire_holds hP h.scopes, h.limits⟩

theorem Holds.leaveEdges (id : ScopeId) : (σ.leaveEdges id).Holds P := by
  have hrel : (σ.releaseEdges (σ.scopes id).edges (σ.stat id)).Holds P :=
    ⟨Graph.holds_modifyEach h.scopes _ (Graph.forChild_rc fun _ hrc => hP.release hrc (h.scopes id)),
      h.limits⟩
  exact hrel.setEdges []

theorem Holds.attempt (c : ConnectionScope) : (σ.attempt c).Holds P :=
  ((h.nextConnId.newResourceScope h.limits.conn _ _).setConn _ _).acquire hP _ _

theorem Holds.openConnection (dir : Direction) (usefd : Bool) (endpoint : Endpoint)
    (ip : Option Addr) : (σ.openConnection dir usefd endpoint ip).1.Holds P :=
  openConnection_induction (fun _ _ h => h.setConnLimiter _) (fun _ c _ h => h.attempt hP c)
    (fun _ c _ h => (h.attempt hP c).done hP _) h dir usefd endpoint ip

theorem Holds.openStream (p : PeerID) (dir : Direction) : (σ.openStream p dir).1.Holds P := by
  have hpeer := h.getPeerScope p
  have hnew : ((σ.getPeerScope p).1.newStreamScope dir (σ.getPeerScope p).2).Holds P :=
    (hpeer.nextStreamId.newResourceScope (hpeer.limits.stream _) _ _).setStream _ _
  have hacq := (hnew.decRef (σ.getPeerScope p).2.scope).acquire hP (.stream dir)
    (σ.getPeerScope p).1.fresh
  simp only [Manager.openStream]
  split
  · rename_i σ₁ heq; simp only [heq] at hacq; exact hacq
  · rename_i σ₁ err heq
    simp only [heq] at hacq
    exact hacq.done hP _

theorem Holds.transferAllowedToStandard (id : ScopeId) :
    (σ.transferAllowedToStandard id).1.Holds P := by
  have hst := h.statOf id
  have hleft := h.leaveEdges hP id
  simp only [Manager.transferAllowedToStandard]
  split
  · rename_i σ₁ err heq; exact hleft.reserveForChild hP hst heq
  · rename_i σ₁ heq
    have hsys := (hleft.reserveForChild hP hst heq).incRef system
    split
    · rename_i σ₂ err heq'
      exact ((hsys.reserveForChild hP hst heq').releaseForChild hP hst).decRef _
    · rename_i σ₂ heq'
      exact ((hsys.reserveForChild hP hst heq').incRef _).setEdges _

theorem Holds.joinPeer (id : ScopeId) (c : ConnectionScope) (p : PeerID)
    (system transient : ScopeId) : (σ.joinPeer id c p system transient).1.Holds P := by
  have hpeer := h.getPeerScope p
  have hst := hpeer.statOf id
  simp only [Manager.joinPeer]
  split
  · rename_i σ₁ err heq
    exact (hpeer.reserveForChild hP hst heq).decRef _
  · rename_i σ₁ heq
    have hres := hpeer.reserveForChild hP hst heq
    exact (((hres.releaseForChild hP hst).decRef transient).setEdges _).setConn id _

theorem Holds.setPeer (id : ScopeId) (p : PeerID) : (σ.setPeer id p).1.Holds P := by
  refine setPeer_induction h (fun c _ _ _ _ _ _ => h.joinPeer hP id c p _ _) ?_
  intro c τ err hc hnone hal hallowed heq
  have htra := (h.setConn id { c with isAllowlisted := false }).transferAllowedToStandard hP id
  rw [heq] at htra
  exact ⟨fun _ => htra, fun _ => htra.joinPeer hP id _ p _ _⟩

theorem Holds.setProtocol (id : ScopeId) (proto : ProtocolID) :
    (σ.setProtocol id proto).1.Holds P := by
  simp only [Manager.setProtocol]
  split
  · exact h
  rename_i s hs
  split
  · exact h
  have hproto := h.getProtocolScope proto
  have hst := hproto.statOf id
  split
  · rename_i σ₁ err heq
    exact (hproto.reserveForChild hP hst heq).decRef _
  · rename_i σ₁ heq
    have hsub := (hproto.reserveForChild hP hst heq).getProtocolPeerScope
      (σ.getProtocolScope proto).2 s.peer.peer
    split
    · rename_i σ₂ err heq'
      exact (((hsub.reserveForChild hP hst heq').releaseForChild hP hst).decRef _).decRef _
    · rename_i σ₂ heq'
      have hres := hsub.reserveForChild hP hst heq'
      exact (((hres.releaseForChild hP hst).decRef _).setEdges _).setStream id _

theorem Holds.setService (id : ScopeId) (svc : String) : (σ.setService id svc).1.Holds P := by
  simp only [Manager.setService]
  split
  · exact h
  rename_i s hs
  split
  · exact h
  split
  · exact h
  rename_i protoScope hproto
  have hsvc := h.getServiceScope svc
  have hst := hsvc.statOf id
  split
  · rename_i σ₁ err heq
    exact (hsvc.reserveForChild hP hst heq).decRef _
  · rename_i σ₁ heq
    have hsub := (hsvc.reserveForChild hP hst heq).getServicePeerScope
      (σ.getServiceScope svc).2 s.peer.peer
    split
    · rename_i σ₂ err heq'
      exact (((hsub.reserveForChild hP hst heq').releaseForChild hP hst).decRef _).decRef _
    · rename_i σ₂ heq'
      exact ((hsub.reserveForChild hP hst heq').setEdges _).setStream id _

/-! ### Garbage collection, views and spans -/

theorem Holds.gc (order : GcOrder) : (σ.gc order).Holds P := by
  refine gc_induction (fun τ slot S hτ _ _ => ?_) h order
  cases slot <;> exact ⟨(hτ.doneUnlocked hP).scopes, hτ.limits⟩

omit hP in
theorem Holds.viewBegin (target : ViewTarget) : (σ.viewBegin target).Holds P := by
  cases target with
  | service svc => exact ⟨(h.getServiceScope svc).scopes, (h.getServiceScope svc).limits⟩
  | protocol proto => exact ⟨(h.getProtocolScope proto).scopes, (h.getProtocolScope proto).limits⟩
  | peer p => exact ⟨(h.getPeerScope p).scopes, (h.getPeerScope p).limits⟩

omit hP in
theorem Holds.viewEnd : (σ.viewEnd id).Holds P := by
  simp only [Manager.viewEnd]
  split
  · exact ⟨(h.decRef id).scopes, h.limits⟩
  · exact h

/-- One call keeps the property in every scope; a `ReleaseMemory` must be of a
size the property admits. -/
theorem Holds.step (op : Op) (hop : ∀ id size, op = .releaseMemory id size → releaseOk size) :
    (σ.step op).Holds P := by
  cases op with
  | openConnection dir usefd endpoint => exact h.openConnection hP dir usefd endpoint _
  | openConnectionNoIP dir usefd endpoint => exact h.openConnection hP dir usefd endpoint none
  | openStream p dir => exact h.openStream hP p dir
  | setPeer id p => exact h.setPeer hP id p
  | setProtocol id proto => exact h.setProtocol hP id proto
  | setService id svc => exact h.setService hP id svc
  | beginSpan id =>
    simp only [Manager.step, exec]
    split
    · exact ⟨Graph.beginSpan_holds hP h.scopes, h.limits⟩
    · exact h
  | reserveMemory id size prio => exact h.acquire hP _ id
  | releaseMemory id size =>
    have hrel : ∀ rc, P rc → P (rc.releaseMemory size) :=
      fun rc => hP.releaseMemory (hop id size rfl)
    exact ⟨Graph.release_holds hrel h.scopes, h.limits⟩
  | done id =>
    simp only [Manager.step, exec]
    split
    · exact h.done hP id
    · exact h
  | viewBegin target => exact h.viewBegin target
  | viewEnd id => exact h.viewEnd
  | gc order => exact h.gc hP order

end

end invariant

end Manager

end Dep2p.Rcmgr
