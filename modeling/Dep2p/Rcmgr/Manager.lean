import Dep2p.Lib.Reach
import Dep2p.Rcmgr.ConnLimiter
import Dep2p.Rcmgr.Scope

/- The resource manager (`rcmgr.go`): its scopes, tables and operations.

   The state holds the scope graph, the maps from names to service, protocol and
   peer scopes, the `peers` map of every service and protocol scope, and what the
   source keeps in `connectionScope` and `streamScope` beside the embedded
   `resourceScope`. Scopes are numbered in the order they are created; the first
   four are the permanent ones. An identifier that was not created yet stands for
   a closed scope.

   Every public method is one operation. `gc` walks Go maps, so it takes the
   orders in which the maps are walked as an argument. A `View…` call holds a
   reference while the caller's function runs, and that function may call anything;
   it is split into its beginning and its end, and the state lists the views that
   are open.

   Correspondence (Go ↔ Lean):
     `getServiceScope`, `getProtocolScope`, `getPeerScope` ↔ the same names
     `serviceScope.getPeerScope`, `protocolScope.getPeerScope`
                                              ↔ `getServicePeerScope`, `getProtocolPeerScope`
     `openConnection`, `OpenStream`           ↔ `openConnection`, `openStream`
     `transferAllowedToStandard`, `SetPeer`   ↔ `transferAllowedToStandard`, `setPeer`
     `SetProtocol`, `SetService`, `Done`, `gc` ↔ `setProtocol`, `setService`, `done`, `gc`

   The trace, the metrics and the background goroutine that calls `gc` are left
   out; `gc` may run between any two operations. -/
namespace Dep2p.Rcmgr

open Lib List

/-- The `Limiter` interface. -/
structure Limiter where
  getSystemLimits : Limit
  getTransientLimits : Limit
  getAllowlistedSystemLimits : Limit
  getAllowlistedTransientLimits : Limit
  getServiceLimits : String → Limit
  getServicePeerLimits : String → Limit
  getProtocolLimits : ProtocolID → Limit
  getProtocolPeerLimits : ProtocolID → Limit
  getPeerLimits : PeerID → Limit
  getStreamLimits : PeerID → Limit
  getConnLimits : Limit

structure PeerScope where
  scope : ScopeId
  peer : PeerID
  deriving DecidableEq, Repr

structure ServiceScope where
  scope : ScopeId
  service : String
  deriving DecidableEq, Repr

structure ProtocolScope where
  scope : ScopeId
  proto : ProtocolID
  deriving DecidableEq, Repr

/-- The fields of `connectionScope`. -/
structure ConnectionScope where
  dir : Direction
  usefd : Bool
  isAllowlisted : Bool := false
  peer : Option PeerScope := none
  endpoint : Endpoint
  ip : Option Addr
  deriving DecidableEq, Repr

/-- The fields of `streamScope`. -/
structure StreamScope where
  dir : Direction
  peer : PeerScope
  svc : Option ServiceScope := none
  proto : Option ProtocolScope := none
  peerProtoScope : Option ScopeId := none
  peerSvcScope : Option ScopeId := none
  deriving DecidableEq, Repr

structure Manager where
  limits : Limiter
  connLimiter : ConnLimiter
  allowlist : Allowlist
  stickyProto : ProtocolID → Bool
  stickyPeer : PeerID → Bool
  svc : String → Option ServiceScope := fun _ => none
  proto : ProtocolID → Option ProtocolScope := fun _ => none
  peer : PeerID → Option PeerScope := fun _ => none
  connId : Nat := 0
  streamId : Nat := 0
  scopes : Graph
  /-- The number of scopes created. -/
  next : Nat := 0
  /-- The field `peers` of service and protocol scopes. -/
  peers : ScopeId → PeerID → Option ScopeId := fun _ _ => none
  conns : ScopeId → Option ConnectionScope := fun _ => none
  streams : ScopeId → Option StreamScope := fun _ => none
  /-- The scopes on which a `View…` call is running. -/
  views : List ScopeId := []

/-- The permanent scopes. -/
def system : ScopeId := .node 0

@[inherit_doc system]
def transient : ScopeId := .node 1

@[inherit_doc system]
def allowlistedSystem : ScopeId := .node 2

@[inherit_doc system]
def allowlistedTransient : ScopeId := .node 3

variable (acc : Manager × List PeerID) (σ : Manager) (owner id : ScopeId) (c : ConnectionScope)
  (proto : ProtocolID) (svc : String) (dir : Direction) (p : PeerID) (usefd : Bool)
  (endpoint : Endpoint) (ip : Option Addr)

/-- The edges of a connection before it has a peer. -/
def ConnectionScope.firstEdges : List ScopeId :=
  if c.isAllowlisted then [allowlistedTransient, allowlistedSystem] else [transient, system]

variable {I : Manager → Prop}

namespace Manager

/-! ## Single steps on a scope -/

def modify (σ : Manager) (id : ScopeId) (f : ResourceScope → ResourceScope) : Manager :=
  { σ with scopes := σ.scopes.modify id f }

def incRef (σ : Manager) (id : ScopeId) : Manager := σ.modify id (·.incRef)

def decRef (σ : Manager) (id : ScopeId) : Manager := σ.modify id (·.decRef)

def setEdges (edges : List ScopeId) : Manager :=
  σ.modify id fun s => { s with edges }

def releaseForChild (σ : Manager) (id : ScopeId) (st : ScopeStat) : Manager :=
  σ.modify id (·.releaseForChild st)

def reserveForChild (σ : Manager) (id : ScopeId) (st : ScopeStat) : Manager × Option RcErr :=
  (σ.modify id fun s => (s.reserveForChild st).1, ((σ.scopes id).reserveForChild st).2)

def doneUnlocked (σ : Manager) (id : ScopeId) : Manager :=
  { σ with scopes := σ.scopes.doneUnlocked id }

def setConn : Manager :=
  { σ with conns := Function.update σ.conns id (some c) }

def setStream (s : StreamScope) : Manager :=
  { σ with streams := Function.update σ.streams id (some s) }

/-- `rc.stat()` of a scope. -/
def stat (σ : Manager) (id : ScopeId) : ScopeStat := (σ.scopes id).rc.stat

/-- The identifier of the next scope. -/
def fresh : ScopeId := .node σ.next

def newResourceScope (σ : Manager) (limit : Limit) (edges : List ScopeId) (name : ScopeName) :
    Manager :=
  { σ with
    scopes := σ.scopes.newResourceScope σ.fresh limit edges name
    next := σ.next + 1 }

/-! ## Creation -/

/-- A manager before any scope is created; every identifier is closed. -/
def blank (limits : Limiter) (connLimiter : ConnLimiter) (allowlist : Allowlist)
    (stickyProto : ProtocolID → Bool) (stickyPeer : PeerID → Bool) : Manager :=
  { limits, connLimiter, allowlist,
    stickyProto, stickyPeer,
    scopes := fun _ =>
      { done := true, rc := { limit := limits.getSystemLimits }, name := .system } }

/-- `NewResourceManager`, with the options applied: the limiter of connections
and the allowlist are those the options leave. -/
def newResourceManager (limits : Limiter) (connLimiter : ConnLimiter) (allowlist : Allowlist)
    (stickyProto : ProtocolID → Bool) (stickyPeer : PeerID → Bool) : Manager :=
  let σ := blank limits connLimiter allowlist stickyProto stickyPeer
  let σ := (σ.newResourceScope limits.getSystemLimits [] .system).incRef system
  let σ := (σ.newResourceScope limits.getTransientLimits [system] .transient).incRef transient
  let σ := (σ.newResourceScope limits.getAllowlistedSystemLimits [] .allowlistedSystem).incRef
    allowlistedSystem
  (σ.newResourceScope limits.getAllowlistedTransientLimits [allowlistedSystem]
    .allowlistedTransient).incRef allowlistedTransient

/-! ## Scopes found by name -/

/-- Set or delete an entry of a map. -/
def enterService (s : Option ServiceScope) : Manager :=
  { σ with svc := Function.update σ.svc svc s }

@[inherit_doc enterService]
def enterProtocol (s : Option ProtocolScope) : Manager :=
  { σ with proto := Function.update σ.proto proto s }

@[inherit_doc enterService]
def enterPeer (s : Option PeerScope) : Manager :=
  { σ with peer := Function.update σ.peer p s }

@[inherit_doc enterService]
def enterSubPeer (ps : Option ScopeId) : Manager :=
  { σ with peers := Function.update σ.peers owner (Function.update (σ.peers owner) p ps) }

/-- The entry of a service, created when missing. -/
def lookupService : Manager × ServiceScope :=
  match σ.svc svc with
  | some s => (σ, s)
  | none =>
    let s : ServiceScope := ⟨σ.fresh, svc⟩
    ((σ.newResourceScope (σ.limits.getServiceLimits svc) [system] (.service svc)).enterService svc
      (some s), s)

def getServiceScope : Manager × ServiceScope :=
  let (σ, s) := σ.lookupService svc
  (σ.incRef s.scope, s)

@[inherit_doc lookupService]
def lookupProtocol : Manager × ProtocolScope :=
  match σ.proto proto with
  | some s => (σ, s)
  | none =>
    let s : ProtocolScope := ⟨σ.fresh, proto⟩
    ((σ.newResourceScope (σ.limits.getProtocolLimits proto) [system] (.protocol proto)).enterProtocol
      proto (some s), s)

def getProtocolScope : Manager × ProtocolScope :=
  let (σ, s) := σ.lookupProtocol proto
  (σ.incRef s.scope, s)

@[inherit_doc lookupService]
def lookupPeer : Manager × PeerScope :=
  match σ.peer p with
  | some s => (σ, s)
  | none =>
    let s : PeerScope := ⟨σ.fresh, p⟩
    ((σ.newResourceScope (σ.limits.getPeerLimits p) [system] (.peer p)).enterPeer p (some s), s)

def getPeerScope : Manager × PeerScope :=
  let (σ, s) := σ.lookupPeer p
  (σ.incRef s.scope, s)

/-- The entry of a peer in the `peers` map of `owner`, created when missing. -/
def lookupSubPeer (limit : Limit) (name : ScopeName) (p : PeerID) : Manager × ScopeId :=
  match σ.peers owner p with
  | some ps => (σ, ps)
  | none =>
    let ps := σ.fresh
    ((σ.newResourceScope limit [] name).enterSubPeer owner p (some ps), ps)

def getServicePeerScope (s : ServiceScope) (p : PeerID) : Manager × ScopeId :=
  let (σ, ps) := σ.lookupSubPeer s.scope (σ.limits.getServicePeerLimits s.service)
    (.servicePeer s.service p) p
  (σ.incRef ps, ps)

def getProtocolPeerScope (s : ProtocolScope) (p : PeerID) : Manager × ScopeId :=
  let (σ, ps) := σ.lookupSubPeer s.scope (σ.limits.getProtocolPeerLimits s.proto)
    (.protocolPeer s.proto p) p
  (σ.incRef ps, ps)

/-! ## Closing -/

def setConnLimiter (cl : ConnLimiter) : Manager := { σ with connLimiter := cl }

/-- `connectionScope.Done`: an open connection also leaves the connection limiter. -/
def connDone : Manager :=
  if (σ.scopes id).done then σ
  else match c.ip with
    | none => σ.doneUnlocked id
    | some ip => (σ.setConnLimiter (σ.connLimiter.rmConn ip)).doneUnlocked id

/-- `Done`. -/
def done : Manager :=
  match σ.conns id with
  | some c => σ.connDone id c
  | none => σ.doneUnlocked id

/-! ## Opening connections and streams -/

def nextConnId : Manager := { σ with connId := σ.connId + 1 }

def nextStreamId : Manager := { σ with streamId := σ.streamId + 1 }

def newConnectionScope : Manager :=
  let id := σ.fresh
  let σ := σ.nextConnId
  (σ.newResourceScope σ.limits.getConnLimits [transient, system] (.conn σ.connId)).setConn id
    { dir, usefd, endpoint, ip }

/-- An allowlisted connection is not counted by the connection limiter. -/
def newAllowListedConnectionScope : Manager :=
  let id := σ.fresh
  let σ := σ.nextConnId
  (σ.newResourceScope σ.limits.getConnLimits [allowlistedTransient, allowlistedSystem]
    (.conn σ.connId)).setConn id
    { dir, usefd, isAllowlisted := true, endpoint, ip := none }

def newStreamScope (peer : PeerScope) : Manager :=
  let id := σ.fresh
  let σ := σ.nextStreamId
  (σ.newResourceScope (σ.limits.getStreamLimits peer.peer) [peer.scope, transient, system]
    (.stream σ.streamId)).setStream id { dir, peer }

/-- A reservation on a scope of the manager. -/
def acquire (σ : Manager) (r : Reservation) (id : ScopeId) : Manager × Option RcErr :=
  ({ σ with scopes := (σ.scopes.acquire r id).1 }, (σ.scopes.acquire r id).2)

/-- `openConnection` after the connection limiter admitted the address: the
standard scopes are tried first, the allowlisted ones when they refuse. -/
def openConnectionScope : Manager × Except RcErr ScopeId :=
  let id := σ.fresh
  match (σ.newConnectionScope dir usefd endpoint ip).acquire (.conn dir usefd) id with
  | (σ, none) => (σ, .ok id)
  | (σ, some err) =>
    if ip.isSome && σ.allowlist.allowed endpoint then
      let σ := σ.done id
      let id := σ.fresh
      match (σ.newAllowListedConnectionScope dir usefd endpoint).acquire (.conn dir usefd) id with
      | (σ, none) => (σ, .ok id)
      | (σ, some err) => (σ.done id, .error err)
    else (σ.done id, .error err)

def openConnection : Manager × Except RcErr ScopeId :=
  match ip with
  | none => σ.openConnectionScope dir usefd endpoint none
  | some addr =>
    match σ.connLimiter.addConn addr with
    | (cl, false) => (σ.setConnLimiter cl, .error .ipLimitExceeded)
    | (cl, true) => (σ.setConnLimiter cl).openConnectionScope dir usefd endpoint (some addr)

/-- What the two constructors of a connection share. -/
def newConn : Manager :=
  (σ.nextConnId.newResourceScope σ.limits.getConnLimits c.firstEdges
    (.conn (σ.connId + 1))).setConn σ.fresh c

/-- A new connection after it asked for its own reservation. -/
def attempt : Manager :=
  ((σ.newConn c).acquire (.conn c.dir c.usefd) σ.fresh).1

/-- Opening a connection creates one with the standard edges, closes it when it is refused,
and then may do the same with the allowlisted ones. -/
theorem openConnection_induction (hlimiter : ∀ σ cl, I σ → I (σ.setConnLimiter cl))
    (hattempt : ∀ σ c, c.peer = none → I σ → I (σ.attempt c))
    (hrefused : ∀ σ c, c.peer = none → I σ → I ((σ.attempt c).done σ.fresh)) {σ : Manager} (h : I σ)
    (dir : Direction) (usefd : Bool) (endpoint : Endpoint) (ip : Option Addr) :
    I (σ.openConnection dir usefd endpoint ip).1 := by
  have hscope : ∀ σ ip, I σ → I (σ.openConnectionScope dir usefd endpoint ip).1 := by
    intro σ ip h
    have hadmit := hattempt σ ⟨dir, usefd, false, none, endpoint, ip⟩ rfl h
    have hdone := hrefused σ ⟨dir, usefd, false, none, endpoint, ip⟩ rfl h
    have hfirst : σ.attempt ⟨dir, usefd, false, none, endpoint, ip⟩ =
        ((σ.newConnectionScope dir usefd endpoint ip).acquire (.conn dir usefd) σ.fresh).1 := rfl
    simp only [openConnectionScope]
    split
    · rename_i σ₁ heq
      rw [hfirst, heq] at hadmit
      exact hadmit
    · rename_i σ₁ err heq
      rw [hfirst, heq] at hdone
      split
      · have hadmit' := hattempt _ ⟨dir, usefd, true, none, endpoint, none⟩ rfl hdone
        have hdone' := hrefused _ ⟨dir, usefd, true, none, endpoint, none⟩ rfl hdone
        have hsecond : (σ₁.done σ.fresh).attempt ⟨dir, usefd, true, none, endpoint, none⟩ =
            (((σ₁.done σ.fresh).newAllowListedConnectionScope dir usefd endpoint).acquire
              (.conn dir usefd) (σ₁.done σ.fresh).fresh).1 := rfl
        rw [hsecond] at hadmit' hdone'
        split
        · rename_i σ₂ heq'
          rw [heq'] at hadmit'
          exact hadmit'
        · rename_i σ₂ err' heq'
          rw [heq'] at hdone'
          exact hdone'
      · exact hdone
  simp only [openConnection]
  split
  · exact hscope σ none h
  · split
    · exact hlimiter σ _ h
    · exact hscope _ _ (hlimiter σ _ h)

def openStream (dir : Direction) : Manager × Except RcErr ScopeId :=
  let (σ, peer) := σ.getPeerScope p
  let id := σ.fresh
  let σ := (σ.newStreamScope dir peer).decRef peer.scope
  match σ.acquire (.stream dir) id with
  | (σ, none) => (σ, .ok id)
  | (σ, some err) => (σ.done id, .error err)

/-! ## Migration to other scopes -/

/-- Give a stat back to every listed scope and drop the reference held on it. -/
def releaseEdges (edges : List ScopeId) (st : ScopeStat) : Manager :=
  { σ with scopes := Store.modifyEach (fun s => (s.releaseForChild st).decRef) edges σ.scopes }

/-- The loop of `transferAllowedToStandard` over the edges, which are forgotten. -/
def leaveEdges : Manager :=
  (σ.releaseEdges (σ.scopes id).edges (σ.stat id)).setEdges id []

def transferAllowedToStandard : Manager × Option RcErr :=
  let st := σ.stat id
  match (σ.leaveEdges id).reserveForChild system st with
  | (σ, some err) => (σ, some err)
  | (σ, none) =>
    match (σ.incRef system).reserveForChild transient st with
    | (σ, some err) => ((σ.releaseForChild system st).decRef system, some err)
    | (σ, none) => ((σ.incRef transient).setEdges id [system, transient], none)

/-- The second half of `SetPeer`: the connection moves from the transient scope
to the scope of its peer. -/
def joinPeer (system transient : ScopeId) : Manager × Option RcErr :=
  let (σ, peer) := σ.getPeerScope p
  let st := σ.stat id
  match σ.reserveForChild peer.scope st with
  | (σ, some err) => (σ.decRef peer.scope, some err)
  | (σ, none) =>
    ((((σ.releaseForChild transient st).decRef transient).setEdges id [peer.scope, system]).setConn
      id { c with peer := some peer }, none)

/-- A connection opened on the allowlist whose peer turns out not to be on it is
moved to the standard scopes first. -/
def setPeer : Manager × Option RcErr :=
  match σ.conns id with
  | none => (σ, none)
  | some c =>
    if c.peer.isSome then (σ, some .connHasPeer)
    else if !c.isAllowlisted then σ.joinPeer id c p system transient
    else if σ.allowlist.allowedPeerAndMultiaddr p c.endpoint then
      σ.joinPeer id c p allowlistedSystem allowlistedTransient
    else
      let c := { c with isAllowlisted := false }
      match (σ.setConn id c).transferAllowedToStandard id with
      | (σ, some err) => (σ, some err)
      | (σ, none) => σ.joinPeer id c p system transient

/-- Naming the peer of a connection moves it to the peer, from the standard scopes or the
allowlisted ones; a connection that has to leave the allowlist may be refused before. -/
theorem setPeer_induction {σ : Manager} {id : ScopeId} {p : PeerID} (h : I σ)
    (hjoin : ∀ c system transient, σ.conns id = some c → c.peer = none →
      (system = if c.isAllowlisted then allowlistedSystem else Rcmgr.system) →
      (transient = if c.isAllowlisted then allowlistedTransient else Rcmgr.transient) →
      I (σ.joinPeer id c p system transient).1)
    (hleave : ∀ c τ err, σ.conns id = some c → c.peer = none → c.isAllowlisted = true →
      σ.allowlist.allowedPeerAndMultiaddr p c.endpoint = false →
      (σ.setConn id { c with isAllowlisted := false }).transferAllowedToStandard id = (τ, err) →
      (err ≠ none → I τ) ∧
        (err = none → I (τ.joinPeer id { c with isAllowlisted := false } p system transient).1)) :
    I (σ.setPeer id p).1 := by
  simp only [setPeer]
  split
  · exact h
  rename_i c hc
  split
  · exact h
  rename_i hpeer
  have hnone : c.peer = none := by simpa using hpeer
  split
  · rename_i hal
    simp only [Bool.not_eq_true'] at hal
    exact hjoin c _ _ hc hnone (by simp [hal]) (by simp [hal])
  · rename_i hal
    simp only [Bool.not_eq_true', Bool.not_eq_false] at hal
    split
    · exact hjoin c _ _ hc hnone (by simp [hal]) (by simp [hal])
    rename_i hallowed
    split
    · rename_i τ err heq
      exact (hleave c τ _ hc hnone hal (by simpa using hallowed) heq).1 (Option.some_ne_none err)
    · rename_i τ heq
      exact (hleave c τ _ hc hnone hal (by simpa using hallowed) heq).2 rfl

def setProtocol : Manager × Option RcErr :=
  match σ.streams id with
  | none => (σ, none)
  | some s =>
    if s.proto.isSome then (σ, some .streamHasProtocol)
    else
      let (σ, protoScope) := σ.getProtocolScope proto
      let st := σ.stat id
      match σ.reserveForChild protoScope.scope st with
      | (σ, some err) => (σ.decRef protoScope.scope, some err)
      | (σ, none) =>
        let (σ, peerProtoScope) := σ.getProtocolPeerScope protoScope s.peer.peer
        match σ.reserveForChild peerProtoScope st with
        | (σ, some err) =>
          (((σ.releaseForChild protoScope.scope st).decRef protoScope.scope).decRef peerProtoScope,
            some err)
        | (σ, none) =>
          ((((σ.releaseForChild transient st).decRef transient).setEdges id
              [s.peer.scope, peerProtoScope, protoScope.scope, system]).setStream id
            { s with proto := some protoScope, peerProtoScope := some peerProtoScope }, none)

def setService : Manager × Option RcErr :=
  match σ.streams id with
  | none => (σ, none)
  | some s =>
    if s.svc.isSome then (σ, some .streamHasService)
    else match s.proto with
      | none => (σ, some .streamHasNoProtocol)
      | some protoScope =>
        let (σ, svcScope) := σ.getServiceScope svc
        let st := σ.stat id
        match σ.reserveForChild svcScope.scope st with
        | (σ, some err) => (σ.decRef svcScope.scope, some err)
        | (σ, none) =>
          let (σ, peerSvcScope) := σ.getServicePeerScope svcScope s.peer.peer
          match σ.reserveForChild peerSvcScope st with
          | (σ, some err) =>
            (((σ.releaseForChild svcScope.scope st).decRef svcScope.scope).decRef peerSvcScope,
              some err)
          | (σ, none) =>
            ((σ.setEdges id (s.peer.scope :: s.peerProtoScope.toList ++
                [peerSvcScope, protoScope.scope, svcScope.scope, system])).setStream id
              { s with svc := some svcScope, peerSvcScope := some peerSvcScope }, none)

/-! ## Garbage collection -/

/-- The orders in which one `gc` walks the maps. -/
structure GcOrder where
  protos : List ProtocolID
  peers : List PeerID
  svcs : List String
  protosAfter : List ProtocolID

def gcProtocol : Manager :=
  match σ.proto proto with
  | none => σ
  | some s =>
    if σ.stickyProto proto then σ
    else if (σ.scopes s.scope).isUnused then
      (σ.doneUnlocked s.scope).enterProtocol proto none
    else σ

/-- One peer, with the list of dead peers so far. -/
def gcPeer : Manager × List PeerID :=
  match acc.1.peer p with
  | none => acc
  | some s =>
    if acc.1.stickyPeer p then acc
    else if (acc.1.scopes s.scope).isUnused then
      ((acc.1.doneUnlocked s.scope).enterPeer p none, acc.2 ++ [p])
    else acc

/-- Close the entry of `p` in the `peers` map of `owner`. -/
def gcSubPeer (σ : Manager) (p : PeerID) : Manager :=
  match σ.peers owner p with
  | none => σ
  | some ps => (σ.doneUnlocked ps).enterSubPeer owner p none

def gcServicePeers (deadPeers : List PeerID) (σ : Manager) (svc : String) : Manager :=
  match σ.svc svc with
  | none => σ
  | some s => deadPeers.foldl (gcSubPeer s.scope) σ

def gcProtocolPeers (deadPeers : List PeerID) (σ : Manager) (proto : ProtocolID) : Manager :=
  match σ.proto proto with
  | none => σ
  | some s => deadPeers.foldl (gcSubPeer s.scope) σ

def gc (order : GcOrder) : Manager :=
  let σ := order.protos.foldl gcProtocol σ
  let (σ, deadPeers) := order.peers.foldl gcPeer (σ, [])
  let σ := order.svcs.foldl (gcServicePeers deadPeers) σ
  order.protosAfter.foldl (gcProtocolPeers deadPeers) σ

end Manager

/-! ## Operations -/

/-- The peer whose scope inside a service or a protocol this is. -/
def ScopeName.insidePeer : ScopeName → Option PeerID
  | .servicePeer _ p | .protocolPeer _ p => some p
  | _ => none

/-- What a `View…` call looks at. -/
inductive ViewTarget where
  | service (svc : String)
  | protocol (proto : ProtocolID)
  | peer (p : PeerID)

/-- The calls a user of the manager can make. -/
inductive Op where
  | openConnection (dir : Direction) (usefd : Bool) (endpoint : Endpoint)
  | openConnectionNoIP (dir : Direction) (usefd : Bool) (endpoint : Endpoint)
  | openStream (p : PeerID) (dir : Direction)
  | setPeer (id : ScopeId) (p : PeerID)
  | setProtocol (id : ScopeId) (proto : ProtocolID)
  | setService (id : ScopeId) (svc : String)
  | beginSpan (id : ScopeId)
  | reserveMemory (id : ScopeId) (size : Int64) (prio : UInt8)
  | releaseMemory (id : ScopeId) (size : Int64)
  | done (id : ScopeId)
  | viewBegin (target : ViewTarget)
  | viewEnd (id : ScopeId)
  | gc (order : Manager.GcOrder)

namespace Manager

def viewBegin (target : ViewTarget) : Manager :=
  let (σ, id) := match target with
    | .service svc => let (σ, s) := σ.getServiceScope svc; (σ, s.scope)
    | .protocol proto => let (σ, s) := σ.getProtocolScope proto; (σ, s.scope)
    | .peer p => let (σ, s) := σ.getPeerScope p; (σ, s.scope)
  { σ with views := id :: σ.views }

/-- The end of a view that is open. -/
def viewEnd : Manager :=
  if id ∈ σ.views then { σ.decRef id with views := σ.views.erase id } else σ

/-- Whether `Done` is a method of the scope: connections, streams and spans. -/
def closable : ScopeId → Bool
  | .node n => (σ.conns (.node n)).isSome || (σ.streams (.node n)).isSome
  | .span _ _ => true

/-- Whether a user can be handed the scope: no method returns the scope of a peer
inside a service or a protocol. -/
def handed : Bool := (σ.scopes id).name.insidePeer.isNone

def exceptErr {α : Type} : Except RcErr α → Option RcErr
  | .ok _ => none
  | .error err => some err

/-- One call, with its error. -/
def exec (σ : Manager) : Op → Manager × Option RcErr
  | .openConnection dir usefd endpoint =>
    let (σ, r) := σ.openConnection dir usefd endpoint endpoint.toIP
    (σ, exceptErr r)
  | .openConnectionNoIP dir usefd endpoint =>
    let (σ, r) := σ.openConnection dir usefd endpoint none
    (σ, exceptErr r)
  | .openStream p dir =>
    let (σ, r) := σ.openStream p dir
    (σ, exceptErr r)
  | .setPeer id p => σ.setPeer id p
  | .setProtocol id proto => σ.setProtocol id proto
  | .setService id svc => σ.setService id svc
  | .beginSpan id =>
    if σ.handed id then
      ({ σ with scopes := (σ.scopes.beginSpan id).1 }, exceptErr (σ.scopes.beginSpan id).2)
    else (σ, none)
  | .reserveMemory id size prio => σ.acquire (.memory size prio) id
  | .releaseMemory id size => ({ σ with scopes := σ.scopes.releaseMemory id size }, none)
  | .done id => (if σ.closable id then σ.done id else σ, none)
  | .viewBegin target => (σ.viewBegin target, none)
  | .viewEnd id => (σ.viewEnd id, none)
  | .gc order => (σ.gc order, none)

def step (σ : Manager) (op : Op) : Manager := (σ.exec op).1

/-- The entries of the maps that `gc` deletes; `inside` is one of the peers of a
service or protocol. -/
inductive Slot where
  | protocol (proto : ProtocolID)
  | peer (p : PeerID)
  | inside (owner : ScopeId) (p : PeerID)

/-- The scope the entry leads to. -/
def entry : Slot → Option ScopeId
  | .protocol proto => (σ.proto proto).map (·.scope)
  | .peer p => (σ.peer p).map (·.scope)
  | .inside owner p => σ.peers owner p

def vacate : Slot → Manager
  | .protocol proto => σ.enterProtocol proto none
  | .peer p => σ.enterPeer p none
  | .inside owner p => σ.enterSubPeer owner p none

/-- What `gc` asks before it deletes an entry that leads to `S`: the scope is unused,
or it is inside a service or protocol and its peer has left the table. -/
def Idle (S : ScopeId) : Slot → Prop
  | .protocol _ | .peer _ => (σ.scopes S).isUnused = true
  | .inside _ p => σ.peer p = none

theorem gcPeer_cases :
    gcPeer acc p = acc ∨ ∃ s, acc.1.peer p = some s ∧ acc.1.Idle s.scope (.peer p) ∧
      gcPeer acc p = ((acc.1.doneUnlocked s.scope).vacate (.peer p), acc.2 ++ [p]) := by
  simp only [gcPeer]
  split
  · exact .inl rfl
  rename_i s hs
  split
  · exact .inl rfl
  · split
    · rename_i hunused; exact .inr ⟨s, hs, hunused, rfl⟩
    · exact .inl rfl

theorem gcPeer_peer (h : ∀ q ∈ acc.2, acc.1.peer q = none) :
    ∀ q ∈ (gcPeer acc p).2, (gcPeer acc p).1.peer q = none := by
  obtain heq | ⟨s, -, -, heq⟩ := gcPeer_cases acc p
  · rw [heq]; exact h
  · rw [heq]
    intro q hq
    simp only [vacate, enterPeer, Function.update_apply]
    split
    · rfl
    rename_i hne
    rcases mem_append.mp hq with hq | hq
    · exact h q hq
    · exact absurd (mem_singleton.mp hq) hne

theorem gcSubPeer_peer (σ : Manager) (p : PeerID) : (gcSubPeer owner σ p).peer = σ.peer := by
  simp only [gcSubPeer]
  split <;> rfl

/-- What closing an idle entry keeps, `gc` keeps, in whatever order it walks the
maps. The peers whose scopes inside services and protocols it closes are no longer
in the table of peers. -/
theorem gc_induction
    (hclose : ∀ σ slot S, I σ → σ.entry slot = some S → σ.Idle S slot → I ((σ.doneUnlocked S).vacate slot))
    {σ : Manager} (h : I σ) (order : GcOrder) : I (σ.gc order) := by
  have hproto : ∀ τ proto, I τ → I (gcProtocol τ proto) := by
    intro τ proto hτ
    simp only [gcProtocol]
    split
    · exact hτ
    rename_i s hs
    split
    · exact hτ
    split
    · rename_i hunused
      exact hclose τ (.protocol proto) s.scope hτ (congrArg (Option.map _) hs) hunused
    · exact hτ
  have hpeer : ∀ acc p, I acc.1 → I (gcPeer acc p).1 := by
    intro acc p hacc
    obtain heq | ⟨s, hs, hunused, heq⟩ := gcPeer_cases acc p
    · rw [heq]; exact hacc
    · rw [heq]
      exact hclose acc.1 (.peer p) s.scope hacc (congrArg (Option.map _) hs) hunused
  have hsub : ∀ τ owner p, I τ → τ.peer p = none → I (gcSubPeer owner τ p) := by
    intro τ owner p hτ hgone
    simp only [gcSubPeer]
    split
    · exact hτ
    · rename_i ps hps
      exact hclose τ (.inside owner p) ps hτ hps hgone
  have h₁ : I (order.protos.foldl gcProtocol σ) :=
    foldlRecOn _ _ h fun τ hτ proto _ => hproto τ proto hτ
  -- the peers found dead have left the table
  have h₂ : I (order.peers.foldl gcPeer (order.protos.foldl gcProtocol σ, [])).1 ∧
      ∀ q ∈ (order.peers.foldl gcPeer (order.protos.foldl gcProtocol σ, [])).2,
        (order.peers.foldl gcPeer (order.protos.foldl gcProtocol σ, [])).1.peer q = none :=
    foldlRecOn
      (motive := fun acc : Manager × List PeerID => I acc.1 ∧ ∀ q ∈ acc.2, acc.1.peer q = none) _ _
      ⟨h₁, fun q hq => absurd hq not_mem_nil⟩
      fun acc hacc p _ => ⟨hpeer acc p hacc.1, gcPeer_peer acc p hacc.2⟩
  have hfold : ∀ (deadPeers : List PeerID) (owner : ScopeId) (τ : Manager),
      (I τ ∧ ∀ q ∈ deadPeers, τ.peer q = none) →
      I (deadPeers.foldl (gcSubPeer owner) τ) ∧
        ∀ q ∈ deadPeers, (deadPeers.foldl (gcSubPeer owner) τ).peer q = none := by
    intro deadPeers owner τ hτ
    refine foldlRecOn (motive := fun ρ : Manager => I ρ ∧ ∀ q ∈ deadPeers, ρ.peer q = none)
      _ _ hτ fun ρ hρ p hp => ⟨hsub ρ owner p hρ.1 (hρ.2 p hp), fun q hq => ?_⟩
    rw [gcSubPeer_peer]; exact hρ.2 q hq
  simp only [gc]
  generalize order.peers.foldl gcPeer (order.protos.foldl gcProtocol σ, []) = acc at h₂
  obtain ⟨τ, deadPeers⟩ := acc
  refine (foldlRecOn (motive := fun ρ : Manager => I ρ ∧ ∀ q ∈ deadPeers, ρ.peer q = none) _ _
    (foldlRecOn (motive := fun ρ : Manager => I ρ ∧ ∀ q ∈ deadPeers, ρ.peer q = none) _ _ h₂
      fun ρ hρ svc _ => ?_) fun ρ hρ proto _ => ?_).1
  · simp only [gcServicePeers]
    split
    · exact hρ
    · exact hfold deadPeers _ ρ hρ
  · simp only [gcProtocolPeers]
    split
    · exact hρ
    · exact hfold deadPeers _ ρ hρ

/-- The state after a list of calls. -/
def run (ops : List Op) : Manager := ops.foldl step σ

end Manager

/-! ## A manager with one limit

Every scope has the same limit and nothing is sticky; the inputs below are about
such managers. -/

def Limiter.uniform (l : Limit) : Limiter :=
  { getSystemLimits := l, getTransientLimits := l, getAllowlistedSystemLimits := l,
    getAllowlistedTransientLimits := l, getServiceLimits := fun _ => l,
    getServicePeerLimits := fun _ => l, getProtocolLimits := fun _ => l,
    getProtocolPeerLimits := fun _ => l, getPeerLimits := fun _ => l, getStreamLimits := fun _ => l,
    getConnLimits := l }

/-- Four of everything, and 1 KiB. -/
def fourLimit : Limit :=
  { streams := 4, streamsInbound := 4, streamsOutbound := 4, conns := 4, connsInbound := 4,
    connsOutbound := 4, fd := 4, memory := 1024 }

def fourManager : Manager :=
  Manager.newResourceManager (.uniform fourLimit) ConnLimiter.newConnLimiter {} (fun _ => false)
    fun _ => false

end Dep2p.Rcmgr
