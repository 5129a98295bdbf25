import Dep2p.Lib.Reach
import Dep2p.Lib.Table
import Dep2p.Multiaddr.Basic
import Mathlib.Data.Finset.Basic

/- The dial worker: one loop that merges all requests to dial one peer.

   The worker is modelled with the dials it started. `dials` lists the calls of
   `dialNextAddr` that have not delivered a final result, and a result is delivered
   only for one of them. Requests get their numbers in the order they arrive. What
   happens to a request and to an address is recorded in `responses` and `history`,
   newest first. Times are counted from `startTime`. -/
namespace Dep2p.Swarm

open Lib

abbrev ConnID := Nat

structure AddrDelay where
  addr : Multiaddr
  delay : Int
  deriving DecidableEq, Repr

/-! ## The dial queue -/

namespace DialQueue

/-- The loop of `Add`, from the end of the queue. -/
def addRev (x : AddrDelay) : List AddrDelay → List AddrDelay
  | [] => [x]
  | e :: q => if e.delay ≤ x.delay then x :: e :: q else e :: addRev x q

def add (q : List AddrDelay) (x : AddrDelay) : List AddrDelay := (addRev x q.reverse).reverse

/-- The loop of `UpdateOrAdd`: whether it returned, and the queue it left. The element
behind a deleted one moves to its place and is not looked at. -/
def updateLoop (x : AddrDelay) : List AddrDelay → Bool × List AddrDelay
  | [] => (false, [])
  | e :: q =>
    if e.addr = x.addr then
      if e.delay = x.delay then (true, e :: q)
      else match q with
        | [] => (false, [])
        | e' :: q' => ((updateLoop x q').1, e' :: (updateLoop x q').2)
    else ((updateLoop x q).1, e :: (updateLoop x q).2)

def updateOrAdd (q : List AddrDelay) (x : AddrDelay) : List AddrDelay :=
  match updateLoop x q with
  | (true, q) => q
  | (false, q) => add q x

/-- The elements with the delay of the first one, and the others. -/
def nextBatch : List AddrDelay → List AddrDelay × List AddrDelay
  | [] => ([], [])
  | e :: q => (e :: q).span (·.delay = e.delay)

end DialQueue

/-! ## Requests and dials -/

inductive DialErr where
  | errDialBackoff
  | other (code : Nat)
  deriving DecidableEq, Repr

def maxDialDialErrors : Nat := 16

structure DialError where
  dialErrors : List (Multiaddr × DialErr) := []
  skipped : Nat := 0
  deriving DecidableEq, Repr

def DialError.recordErr (e : DialError) (addr : Multiaddr) (err : DialErr) : DialError :=
  if e.dialErrors.length ≥ maxDialDialErrors then { e with skipped := e.skipped + 1 }
  else { e with dialErrors := e.dialErrors ++ [(addr, err)] }

inductive DialResponse where
  | conn (c : ConnID)
  | noGoodAddresses (err : DialError)
  | allDialsFailed (err : DialError)
  deriving DecidableEq, Repr

/-- What the context of a request says about its dials. -/
structure DialCtx where
  simConnect : Bool := false
  forceDirect : Bool := false
  deriving DecidableEq, Repr

/-- A `dialRequest` with what the swarm answers about it: the best connection there
is, the addresses to dial in the order of the ranking, and their delays. -/
structure DialRequest where
  ctx : DialCtx := {}
  best : Option ConnID := none
  addrs : List Multiaddr
  addrErrs : List (Multiaddr × DialErr) := []
  delay : Multiaddr → Int := fun _ => 0

/-- `asked` is what `addrs` was when the request came, after `since` marks. -/
structure PendRequest where
  req : Nat
  err : DialError
  addrs : Finset Multiaddr
  asked : Finset Multiaddr
  since : Nat

structure AddrDial where
  addr : Multiaddr
  ctx : DialCtx
  conn : Option ConnID := none
  err : Option DialErr := none
  dialed : Bool := false
  expectedTCPUpgradeTime : Option Int := none
  deriving DecidableEq, Repr

/-- What happened to an address. -/
inductive Mark where
  /-- it was passed to `dialNextAddr` -/
  | passed (a : Multiaddr)
  | failed (a : Multiaddr) (err : DialErr)
  | connected (a : Multiaddr)
  deriving DecidableEq, Repr

def Mark.addr : Mark → Multiaddr
  | .passed a => a
  | .failed a _ => a
  | .connected a => a

/-- What becomes of a request when the dial of `addr` fails: it stays, or it is
answered. `best` is the connection that a last look finds for it. -/
def PendRequest.fail (addr : Multiaddr) (err : DialErr) (best : Nat → Option ConnID)
    (pr : PendRequest) : PendRequest ⊕ (Nat × DialResponse) :=
  if addr ∈ pr.addrs then
    let pr := { pr with err := pr.err.recordErr addr err, addrs := pr.addrs.erase addr }
    if pr.addrs = ∅ then
      match best pr.req with
      | some c => .inr (pr.req, .conn c)
      | none => .inr (pr.req, .allDialsFailed pr.err)
    else .inl pr
  else .inl pr

structure DialWorker where
  pendingRequests : List PendRequest := []
  trackedDials : Table Multiaddr AddrDial := {}
  dq : List AddrDelay := []
  dialsInFlight : Int := 0
  connected : Bool := false
  -- nothing but a closed channel stops the timer of a new worker in 292 years
  timer : Option Int := some 9223372036854775807
  closed : Bool := false
  nextReq : Nat := 0
  responses : List (Nat × DialResponse) := []
  dials : List Multiaddr := []
  history : List Mark := []

variable (w : DialWorker) (r : DialRequest) (ad : AddrDial)

namespace DialWorker

def respond (req : Nat) (r : DialResponse) : DialWorker :=
  { w with responses := (req, r) :: w.responses }

def scheduleNextDial : DialWorker :=
  { w with
    timer :=
      match w.dq with
      | [] => none
      | top :: _ =>
        if w.dialsInFlight = 0 ∧ w.connected = false then some 0
        else some (w.trackedDials.entries.foldl
          (fun resetTime e => match e.2.expectedTCPUpgradeTime with
            | some t => if t > resetTime then t else resetTime
            | none => resetTime) top.delay) }

/-! ## Errors -/

def dispatchError (err : DialErr) (best : Nat → Option ConnID) : DialWorker :=
  let outcomes := w.pendingRequests.map (PendRequest.fail ad.addr err best)
  { w with
    pendingRequests := outcomes.filterMap Sum.getLeft?
    responses := outcomes.filterMap Sum.getRight? ++ w.responses
    history := .failed ad.addr err :: w.history
    trackedDials :=
      if err = .errDialBackoff then w.trackedDials.erase ad.addr
      else w.trackedDials.set ad.addr { ad with err := some err } }

/-! ## A request -/

/-- The addresses of a request: those to dial, those being dialed, those that failed. -/
structure Collected where
  todial : List AddrDelay := []
  tojoin : List AddrDial := []
  failed : List (Multiaddr × DialErr) := []

/-- The loop over the ranked addresses, which a connection ends. -/
def collect (w : DialWorker) : List AddrDelay → Except ConnID Collected
  | [] => .ok {}
  | x :: rest =>
    match w.trackedDials.get x.addr with
    | none => (w.collect rest).map fun c => { c with todial := x :: c.todial }
    | some ad =>
      match ad.conn with
      | some conn => .error conn
      | none =>
        match ad.err with
        | some err => (w.collect rest).map fun c => { c with failed := (x.addr, err) :: c.failed }
        | none => (w.collect rest).map fun c => { c with tojoin := ad :: c.tojoin }

/-- An address that waits in the queue for another request. -/
def joinDial (w : DialWorker) (ad : AddrDial) : DialWorker :=
  if !ad.dialed && r.ctx.simConnect && !ad.ctx.simConnect then
    { w with
      trackedDials := w.trackedDials.set ad.addr { ad with ctx := { ad.ctx with simConnect := true } }
      dq := DialQueue.updateOrAdd w.dq ⟨ad.addr, r.delay ad.addr⟩ }
  else w

def trackDial (w : DialWorker) (x : AddrDelay) : DialWorker :=
  { w with
    trackedDials := w.trackedDials.set x.addr { addr := x.addr, ctx := r.ctx }
    dq := DialQueue.add w.dq x }

/-- `addrsForDial` returns no address twice. -/
def ranking : List AddrDelay := r.addrs.dedup.map fun a => ⟨a, r.delay a⟩

def pendRequest (req : Nat) (c : Collected) : PendRequest where
  req := req
  since := w.history.length
  err := c.failed.foldl (fun e f => e.recordErr f.1 f.2) { dialErrors := r.addrErrs }
  addrs := r.addrs.toFinset \ (c.failed.map (·.1)).toFinset
  asked := r.addrs.toFinset

def addRequest (req : Nat) (c : Collected) : DialWorker :=
  let w := { w with pendingRequests := w.pendRequest r req c :: w.pendingRequests }
  let w := c.tojoin.foldl (joinDial r) w
  let w := c.todial.foldl (trackDial r) w
  w.scheduleNextDial

def request : DialWorker :=
  let req := w.nextReq
  let w := { w with nextReq := w.nextReq + 1 }
  match r.best with
  | some c => w.respond req (.conn c)
  | none =>
    if r.addrs = [] then w.respond req (.noGoodAddresses { dialErrors := r.addrErrs })
    else match w.collect (ranking r) with
      | .error c => w.respond req (.conn c)
      | .ok c =>
        if c.todial = [] ∧ c.tojoin = [] then
          w.respond req (.allDialsFailed (w.pendRequest r req c).err)
        else w.addRequest r req c

/-! ## The timer -/

/-- One address of a batch, when the addresses in `backoff` are backed off. -/
def dialOne (backoff : Multiaddr → Bool) (best : Nat → Option ConnID) (w : DialWorker)
    (x : AddrDelay) : DialWorker :=
  match w.trackedDials.get x.addr with
  | none => w
  | some ad =>
    let ad := { ad with dialed := true }
    let w := { w with
      trackedDials := w.trackedDials.set x.addr ad
      history := .passed ad.addr :: w.history }
    if !ad.ctx.forceDirect && backoff ad.addr then w.dispatchError ad .errDialBackoff best
    else { w with dialsInFlight := w.dialsInFlight + 1, dials := ad.addr :: w.dials }

def timerFired (backoff : Multiaddr → Bool) (best : Nat → Option ConnID) : DialWorker :=
  let batch := DialQueue.nextBatch w.dq
  (batch.1.foldl (dialOne backoff best) { w with dq := batch.2 }).scheduleNextDial

/-! ## Results -/

def progressed (addr : Multiaddr) (isPublic : Bool) (upgrade : Int) : DialWorker :=
  match w.trackedDials.get addr with
  | none => { w with dialsInFlight := w.dialsInFlight - 1, dials := w.dials.erase addr }
  | some ad =>
    let w := if isPublic then
        { w with trackedDials := w.trackedDials.set addr { ad with expectedTCPUpgradeTime := some upgrade } }
      else w
    w.scheduleNextDial

/-- A final result: the dial is no longer in flight. -/
def finishDial (addr : Multiaddr) (ad : AddrDial) : DialWorker × AddrDial :=
  let ad := { ad with expectedTCPUpgradeTime := none }
  ({ w with
      dialsInFlight := w.dialsInFlight - 1
      dials := w.dials.erase addr
      trackedDials := w.trackedDials.set addr ad }, ad)

/-- The swarm took the connection. -/
def dialSucceeded (conn : ConnID) : DialWorker :=
  let answered := w.pendingRequests.filter fun pr => ad.addr ∈ pr.addrs
  { w with
    pendingRequests := w.pendingRequests.filter fun pr => ad.addr ∉ pr.addrs
    responses := answered.map (fun pr => (pr.req, .conn conn)) ++ w.responses
    history := .connected ad.addr :: w.history
    trackedDials := w.trackedDials.set ad.addr { ad with conn := some conn }
    connected := true }

/-- The result of a dial: the connection, or the error that `addConn` met, or the
error of the dial. -/
inductive DialResult where
  | conn (c : ConnID)
  | addConnErr (err : DialErr)
  | err (err : DialErr)

def finished (addr : Multiaddr) (res : DialResult) (best : Nat → Option ConnID) : DialWorker :=
  match w.trackedDials.get addr with
  | none => { w with dialsInFlight := w.dialsInFlight - 1, dials := w.dials.erase addr }
  | some ad =>
    let (w, ad) := w.finishDial addr ad
    match res with
    | .conn c => w.dialSucceeded ad c
    | .addConnErr err => w.dispatchError ad err best
    | .err err => (w.dispatchError ad err best).scheduleNextDial

/-! ## Events -/

inductive Event where
  | request (r : DialRequest)
  | timer (backoff : Multiaddr → Bool) (best : Nat → Option ConnID)
  | progress (addr : Multiaddr) (isPublic : Bool) (upgrade : Int)
  | result (addr : Multiaddr) (res : DialResult) (best : Nat → Option ConnID)
  | close

/-- One turn of the loop. -/
def turn : Event → DialWorker
  | .request r => w.request r
  | .timer backoff best => if w.timer = none then w else w.timerFired backoff best
  | .progress addr isPublic upgrade =>
    if addr ∈ w.dials then w.progressed addr isPublic upgrade else w
  | .result addr res best => if addr ∈ w.dials then w.finished addr res best else w
  | .close => { w with closed := true }

def step (w : DialWorker) (e : Event) : DialWorker := if w.closed then w else w.turn e

end DialWorker

end Dep2p.Swarm
