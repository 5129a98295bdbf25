import Dep2p.Lib.Reach
import Dep2p.Lib.Table
import Dep2p.Multiaddr.Basic

/- The dial limiter: at most `fdLimit` dials that take a file descriptor, at most
   `perPeerLimit` dials to one peer.

   A job first needs a token of its peer and then, for some addresses, one of the
   file descriptor tokens. It waits for the first in `waitingOnPeerLimit` and,
   holding it, for the second in `waitingOnFd`. The goroutines in `executeDial` are
   the list `executing`. A context can end at any moment, also while the limiter
   holds its lock: `ends` says which ones end before each further look at a context
   of the call that is running. -/
namespace Dep2p.Swarm

open Lib

abbrev PeerID := Nat
abbrev Ctx := Nat

structure DialJob where
  addr : Multiaddr
  peer : PeerID
  ctx : Ctx
  deriving DecidableEq, Repr

/-- Limits below zero act as zero does. -/
structure DialLimiter where
  fdConsuming : Int := 0
  fdLimit : Nat
  waitingOnFd : List DialJob := []
  activePerPeer : PeerID → Int := fun _ => 0
  perPeerLimit : Nat
  waitingOnPeerLimit : Table PeerID (List DialJob) := {}
  executing : List DialJob := []
  done : List Ctx := []
  ends : List (List Ctx) := []

def isFdConsumingAddr (addr : Multiaddr) : Bool :=
  match (addr.splitFunc fun c => c.code = Multiaddr.P_CIRCUIT).1 with
  | none => true
  | some first =>
    (first.valueForProtocol Multiaddr.P_TCP).isSome || (first.valueForProtocol Multiaddr.P_UNIX).isSome

def shouldConsumeFd (addr : Multiaddr) : Bool :=
  let isRelay := (addr.valueForProtocol Multiaddr.P_CIRCUIT).isSome
  !isRelay && isFdConsumingAddr addr

def DialJob.fd (j : DialJob) : Bool := shouldConsumeFd j.addr

variable (s : DialLimiter) (p : PeerID) (dj : DialJob) (wl : List DialJob)

namespace DialLimiter

def newDialLimiterWithParams (fdLimit perPeerLimit : Nat) : DialLimiter :=
  { fdLimit, perPeerLimit }

/-- The moment before a look at a context. -/
def elapse : DialLimiter :=
  match s.ends with
  | [] => s
  | e :: ends => { s with done := e ++ s.done, ends }

def cancelled (j : DialJob) : Bool := decide (j.ctx ∈ s.done)

/-- `go dl.executeDial(dj)` -/
def execute : DialLimiter := { s with executing := dj :: s.executing }

def addCheckFdLimit : DialLimiter :=
  if shouldConsumeFd dj.addr then
    if s.fdConsuming ≥ s.fdLimit then { s with waitingOnFd := s.waitingOnFd ++ [dj] }
    else { s with fdConsuming := s.fdConsuming + 1 }.execute dj
  else s.execute dj

def addActive (d : Int) : DialLimiter :=
  { s with activePerPeer := Function.update s.activePerPeer p (s.activePerPeer p + d) }

def waitlist : List DialJob := (s.waitingOnPeerLimit.get p).getD []

/-- `waitingOnPeerLimit[p] = wl`, and no entry for an empty list. -/
def setWaitlist : DialLimiter :=
  { s with
    waitingOnPeerLimit :=
      if wl.isEmpty then s.waitingOnPeerLimit.erase p else s.waitingOnPeerLimit.set p wl }

def addCheckPeerLimit : DialLimiter :=
  if s.activePerPeer dj.peer ≥ s.perPeerLimit then
    s.setWaitlist dj.peer (s.waitlist dj.peer ++ [dj])
  else (s.addActive dj.peer 1).addCheckFdLimit dj

/-- The loop of `freePeerToken` over the list of the peer `p`, whose jobs are all
for `p`. -/
def freePeerLoop (p : PeerID) : List DialJob → DialLimiter → DialLimiter
  | [], s => s
  | next :: wl, s =>
    let s := (s.setWaitlist p wl).elapse
    if s.cancelled next then freePeerLoop p wl s
    else (s.addActive next.peer 1).addCheckFdLimit next

def freePeerToken : DialLimiter :=
  let s := s.addActive dj.peer (-1)
  freePeerLoop dj.peer (s.waitlist dj.peer) s

/-- The jobs that wait. -/
def waiting : Nat :=
  s.waitingOnFd.length + s.waitingOnPeerLimit.weight List.length

theorem waiting_elapse : s.elapse.waiting = s.waiting := by
  unfold elapse
  split <;> rfl

theorem waiting_addCheckFdLimit : (s.addCheckFdLimit dj).waiting ≤ s.waiting + 1 := by
  unfold addCheckFdLimit
  split
  · split
    · simp only [waiting, List.length_append, List.length_singleton]
      omega
    · exact Nat.le_succ _
  · exact Nat.le_succ _

theorem waiting_setWaitlist {s : DialLimiter} {p : PeerID} {next : DialJob} {wl : List DialJob}
    (h : s.waitlist p = next :: wl) : (s.setWaitlist p wl).waiting + 1 ≤ s.waiting := by
  have hget : s.waitingOnPeerLimit.get p = some (next :: wl) := by
    unfold waitlist at h
    cases hg : s.waitingOnPeerLimit.get p with
    | none => rw [hg] at h; cases h
    | some l => rw [hg] at h; exact congrArg some h
  have herase := Table.weight_erase_add (w := List.length) hget
  rw [List.length_cons] at herase
  simp only [waiting, setWaitlist]
  split
  · omega
  · rw [Table.weight_set]
    omega

theorem waitlist_setWaitlist (q : PeerID) (wl : List DialJob) :
    (s.setWaitlist p wl).waitlist q = if q = p then wl else s.waitlist q := by
  unfold waitlist setWaitlist
  split
  · rename_i hwl
    rw [Table.get_erase, List.isEmpty_iff.mp hwl]
    split <;> rfl
  · rw [Table.get_set]
    split <;> rfl

theorem waitlist_elapse : s.elapse.waitlist p = s.waitlist p := by
  unfold elapse
  split <;> rfl

theorem waiting_freePeerLoop (s : DialLimiter) (h : s.waitlist p = wl) :
    (freePeerLoop p wl s).waiting ≤ s.waiting := by
  induction wl generalizing s with
  | nil => exact Nat.le_refl _
  | cons next wl ih =>
    have hset := waiting_setWaitlist h
    have hlook := waiting_elapse (s.setWaitlist p wl)
    rw [freePeerLoop]
    split
    · have hwl : (s.setWaitlist p wl).elapse.waitlist p = wl := by
        rw [waitlist_elapse, waitlist_setWaitlist, if_pos rfl]
      have := ih _ hwl
      omega
    · have := waiting_addCheckFdLimit ((s.setWaitlist p wl).elapse.addActive next.peer 1) next
      change _ ≤ (s.setWaitlist p wl).elapse.waiting + 1 at this
      omega

theorem waiting_freePeerToken : (s.freePeerToken dj).waiting ≤ s.waiting :=
  waiting_freePeerLoop dj.peer _ (s.addActive dj.peer (-1)) rfl

/-- The loop of `freeFDToken`. A cancelled job gives its peer token back, which may
start another job of its peer, and that job may take the token being freed. -/
def freeFDLoop (s : DialLimiter) : DialLimiter :=
  match _hq : s.waitingOnFd with
  | [] => s
  | next :: rest =>
    let s' := { s with waitingOnFd := rest }.elapse
    if s'.cancelled next then freeFDLoop (s'.freePeerToken next)
    else { s' with fdConsuming := s'.fdConsuming + 1 }.execute next
termination_by s.waiting
decreasing_by
  have hpop : { s with waitingOnFd := rest }.waiting + 1 = s.waiting := by
    simp only [waiting, _hq, List.length_cons]
    omega
  have hlook := waiting_elapse { s with waitingOnFd := rest }
  have hfree := waiting_freePeerToken { s with waitingOnFd := rest }.elapse next
  omega

def freeFDToken : DialLimiter :=
  { s with fdConsuming := s.fdConsuming - 1 }.freeFDLoop

def finishedDial : DialLimiter :=
  (if shouldConsumeFd dj.addr then s.freeFDToken else s).freePeerToken dj

def clearAllPeerDials : DialLimiter :=
  { s with waitingOnPeerLimit := s.waitingOnPeerLimit.erase p }

inductive Op where
  | addDialJob (dj : DialJob)
  | clearAllPeerDials (p : PeerID)
  | finished (dj : DialJob) (ends : List (List Ctx))
  | cancel (ctx : Ctx)

/-- The contexts that no look saw end. -/
def settle : DialLimiter := { s with done := s.ends.flatten ++ s.done, ends := [] }

def step (s : DialLimiter) : Op → DialLimiter
  | .addDialJob dj => s.addCheckPeerLimit dj
  | .clearAllPeerDials p => s.clearAllPeerDials p
  | .finished dj ends =>
    if dj ∈ s.executing then
      ({ s with executing := s.executing.erase dj, ends }.finishedDial dj).settle
    else s
  | .cancel ctx => { s with done := ctx :: s.done }

end DialLimiter

end Dep2p.Swarm
