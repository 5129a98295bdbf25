import Dep2p.Lib.Store
import Dep2p.Rcmgr.Resources

/- The scope graph (`scope.go`, `resourceScope`).

   A scope is either a node of a DAG, charged together with the scopes of its
   `edges`, or a span, charged together with its owner. A span never changes its
   owner and its number is drawn from a counter of the owner, so a span is
   identified by the owner and the number, and the owner chain is the structure
   of the identifier. The graph maps every identifier to the state of its scope;
   the operations below are the locked methods of `resourceScope`, from graph to
   graph.

   The methods that reserve one thing (`ReserveMemory`, `AddStream`, `AddConn`)
   have one shape: charge the scope, then its owner or its edges, and undo on
   refusal. `acquire` is that shape and the methods are its instances; the same
   holds of `release` for `ReleaseMemory` and `ReleaseResources`.

   Correspondence (Go ↔ Lean):
     `ReserveMemory`, `AddStream`, `AddConn`   ↔ `reserveMemory`, `addStream`, `addConn`
     `reserveMemoryForEdges` and its siblings  ↔ `acquireForEdges`
     `ReserveMemoryForChild` and its siblings  ↔ `ResourceScope.acquireForChild`
     `ReserveForChild`, `ReleaseForChild`      ↔ `reserveForChild`, `releaseForChild`
     `ReleaseMemory`, `ReleaseResources`       ↔ `releaseMemory`, `releaseResources`
     `BeginSpan`, `doneUnlocked`, `IsUnused`   ↔ `beginSpan`, `doneUnlocked`, `isUnused` -/
namespace Dep2p.Rcmgr

open Lib

/-- A scope: the `n`-th DAG scope created, or the `id`-th span of its owner. -/
inductive ScopeId where
  | node (n : Nat)
  | span (owner : ScopeId) (id : Nat)
  deriving DecidableEq, Repr

/-- `resourceScope`; `owner` is part of the identifier. -/
structure ResourceScope where
  done : Bool := false
  refCnt : Int := 0
  spanID : Nat := 0
  rc : Resources
  edges : List ScopeId := []
  name : ScopeName
  deriving Repr

variable (s : ResourceScope) (st : ScopeStat)

namespace ResourceScope

def wrapError (err : RcErr) : RcErr := .wrapped s.name err

/-- `f` on the counters, unless the scope is done: the shape of every
`…ForChild` method that releases. -/
def forChild (f : Resources → Resources) (s : ResourceScope) : ResourceScope :=
  if s.done then s else { s with rc := f s.rc }

def releaseForChild (s : ResourceScope) : ResourceScope :=
  s.forChild (·.release st)

/-- The undo inside the reservation writes to the counters even when it fails,
so the scope is returned with the error. -/
def reserveForChild (s : ResourceScope) : ResourceScope × Option RcErr :=
  if s.done then (s, some (s.wrapError .scopeClosed))
  else match s.rc.reserve st with
    | (rc, some err) => ({ s with rc }, some (s.wrapError err))
    | (rc, none) => ({ s with rc }, none)

def incRef : ResourceScope := { s with refCnt := s.refCnt + 1 }

def decRef : ResourceScope := { s with refCnt := s.refCnt - 1 }

/-- Memory is not looked at. -/
def isUnused : Bool :=
  if s.done then true
  else if s.refCnt > 0 then false
  else
    let st := s.rc.stat
    st.numStreamsInbound == 0 && st.numStreamsOutbound == 0 && st.numConnsInbound == 0 &&
      st.numConnsOutbound == 0 && st.numFD == 0

end ResourceScope

/-- One thing to reserve. -/
inductive Reservation where
  | memory (size : Int64) (prio : UInt8)
  | stream (dir : Direction)
  | conn (dir : Direction) (usefd : Bool)

namespace Reservation

/-- Charging the counters of one scope. -/
def take : Reservation → Resources → Except RcErr Resources
  | .memory size prio, rc => rc.reserveMemory size prio
  | .stream dir, rc => rc.addStream dir
  | .conn dir usefd, rc => rc.addConn dir usefd

/-- The release that undoes `take`. -/
def giveBack : Reservation → Resources → Resources
  | .memory size _, rc => rc.releaseMemory size
  | .stream dir, rc => rc.removeStream dir
  | .conn dir usefd, rc => rc.removeConn dir usefd

/-- What is asked for. -/
def usage : Reservation → Usage
  | .memory size _ => memoryUsage size.toInt
  | .stream dir => streamUsage dir
  | .conn dir usefd => connUsage dir usefd

end Reservation

variable (r : Reservation)

/-- `ReserveMemoryForChild`, `AddStreamForChild`, `AddConnForChild`. -/
def ResourceScope.acquireForChild (s : ResourceScope) : Except RcErr ResourceScope :=
  if s.done then .error (s.wrapError .scopeClosed)
  else match r.take s.rc with
    | .error err => .error (s.wrapError err)
    | .ok rc => .ok { s with rc }

/-- The scopes, by identifier. -/
abbrev Graph := Store ScopeId ResourceScope

variable (g : Graph)

namespace Graph

/-- `f` on the counters of each listed scope that is not done. -/
def forEdges (f : Resources → Resources) (es : List ScopeId) (g : Graph) : Graph :=
  Store.modifyEach (·.forChild f) es g

/-- `reserveMemoryForEdges` of a scope without owner: the edges are reserved in
order, and the reserved prefix is released when one refuses. -/
def acquireForEdges (edges : List ScopeId) (g : Graph) : Graph × Option RcErr :=
  Store.allOrNothing (·.acquireForChild r) (·.forChild r.giveBack) edges g

/-- Charge `id`, then `rest`; take the charge back when `rest` refuses. -/
def acquireAt (id : ScopeId) (rest : Graph → Graph × Option RcErr) (g : Graph) :
    Graph × Option RcErr :=
  if (g id).done then (g, some ((g id).wrapError .scopeClosed))
  else match r.take (g id).rc with
    | .error err => (g, some ((g id).wrapError err))
    | .ok rc =>
      match rest (g.modify id fun s => { s with rc }) with
      | (g', none) => (g', none)
      | (g', some err) =>
        (g'.modify id fun s => { s with rc := r.giveBack s.rc }, some ((g id).wrapError err))

/-- A span reserves in its owner, a node in its edges. -/
def acquire (r : Reservation) : ScopeId → Graph → Graph × Option RcErr
  | .node n => acquireAt r (.node n) fun g => acquireForEdges r (g (.node n)).edges g
  | .span owner k => acquireAt r (.span owner k) (acquire r owner)

def reserveMemory (id : ScopeId) (size : Int64) (prio : UInt8) : Graph × Option RcErr :=
  acquire (.memory size prio) id g

def addStream (id : ScopeId) (dir : Direction) : Graph × Option RcErr :=
  acquire (.stream dir) id g

def addConn (id : ScopeId) (dir : Direction) (usefd : Bool) : Graph × Option RcErr :=
  acquire (.conn dir usefd) id g

/-- Release at a scope that is not done, then at its owner or its edges. -/
def release (f : Resources → Resources) : ScopeId → Graph → Graph
  | .node n, g =>
    if (g (.node n)).done then g
    else forEdges f (g (.node n)).edges (g.modify (.node n) fun s => { s with rc := f s.rc })
  | .span owner k, g =>
    if (g (.span owner k)).done then g
    else release f owner (g.modify (.span owner k) fun s => { s with rc := f s.rc })

def releaseMemory (g : Graph) (id : ScopeId) (size : Int64) : Graph :=
  release (·.releaseMemory size) id g

def releaseResources (id : ScopeId) (st : ScopeStat) : Graph :=
  release (·.release st) id g

/-- What `doneUnlocked` does before it clears the scope: give the stat back to
the owner or to every edge, and drop the reference held on it. -/
def detach (st : ScopeStat) : ScopeId → Graph
  | .node n =>
    Store.modifyEach (fun s => (s.releaseForChild st).decRef) (g (.node n)).edges g
  | .span owner _ => (g.releaseResources owner st).modify owner (·.decRef)

def doneUnlocked (id : ScopeId) : Graph :=
  if (g id).done then g
  else (g.detach (g id).rc.stat id).modify id fun s => { s with rc := s.rc.zero, done := true }

/-- `BeginSpan`: the span inherits the owner's limit. -/
def beginSpan (id : ScopeId) : Graph × Except RcErr ScopeId :=
  if (g id).done then (g, .error ((g id).wrapError .scopeClosed))
  else
    let k := (g id).spanID + 1
    let g' := g.modify id fun s => { s with refCnt := s.refCnt + 1, spanID := k }
    (Function.update g' (.span id k)
      { rc := { limit := (g id).rc.limit }, name := .span (g id).name k }, .ok (.span id k))

/-- `newResourceScope` at a fresh identifier. -/
def newResourceScope (id : ScopeId) (limit : Limit) (edges : List ScopeId) (name : ScopeName) :
    Graph :=
  Function.update (Store.modifyEach (·.incRef) edges g) id
    { rc := { limit }, edges, name }

/-- The scopes a reservation on `id` charges, in the order they are asked: the
owner chain, its root, and the root's edges. -/
def path (g : Graph) : ScopeId → List ScopeId
  | .node n => .node n :: (g (.node n)).edges
  | .span owner k => .span owner k :: g.path owner

end Graph

end Dep2p.Rcmgr
