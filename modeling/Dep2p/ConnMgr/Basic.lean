import Dep2p.Lib.Table
import Dep2p.Rcmgr.Resources

/- The connection manager: peer records, tags, protection and connection events
   (`connmgr.go`).

   Values of tags are Go's `int` and are kept as `Int64`, with its wrapping sums; the
   counter of connections is an `atomic.Int32`. Times and durations are nanoseconds and
   the clock is an argument of each call. The map of peers is split in 256 segments with
   a lock each; here it is one map, and a call is one step. A connection is its number
   and the peer it goes to, and what `Stat` says of it is an argument of the functions
   that look at it.

   Correspondence (Go ↔ Lean):
     `segment.tagInfoFor`                   ↔ `tagInfoFor`
     `TagPeer`, `UntagPeer`, `UpsertTag`    ↔ the same names
     `Protect`, `Unprotect`                 ↔ the same names
     `cmNotifee.Connected`, `Disconnected`  ↔ `connected`, `disconnected` -/
namespace Dep2p.ConnMgr

open Lib

/-- A `peer.ID` is a byte string. `segments.get` looks at its last byte and panics where
there is none, so the empty string is no ID here. -/
abbrev PeerID := { p : List UInt8 // p ≠ [] }

/-- The ID of one byte. -/
def PeerID.single (b : UInt8) : PeerID := ⟨[b], List.cons_ne_nil b []⟩

structure Conn where
  id : Nat
  remotePeer : PeerID
  deriving DecidableEq, Repr

/-- A decaying tag is known by the number of its allocation. -/
abbrev TagID := Nat

structure DecayingValue where
  tag : TagID
  peer : PeerID
  lastVisit : Int
  added : Int
  value : Int64
  deriving DecidableEq, Repr

structure PeerInfo where
  id : PeerID
  tags : Table String Int64 := {}
  decaying : Table TagID DecayingValue := {}
  /-- The cached sum of all tag values. -/
  value : Int64 := 0
  /-- The record holds early tags and waits for a connection. -/
  temp : Bool := false
  /-- The connections, with the times they began. -/
  conns : Table Conn Int := {}
  firstSeen : Int
  deriving DecidableEq, Repr

/-- A low-water mark is not negative: far below zero `make` panics in a trim. -/
structure Config where
  highWater : Int
  lowWater : Nat
  gracePeriod : Int
  deriving DecidableEq, Repr

structure BasicConnMgr where
  cfg : Config
  peers : Table PeerID PeerInfo := {}
  protectedTags : Table PeerID (List String) := {}
  connCount : Int32 := 0
  deriving DecidableEq, Repr

/-- The value of a tag, zero where it is not set. -/
def PeerInfo.tag (pi : PeerInfo) (tag : String) : Int64 := (pi.tags.get tag).getD 0

namespace BasicConnMgr

variable (cm : BasicConnMgr)

/-! ## Tags -/

/-- The record of a peer; a peer that is not known gets a temporary one. -/
def tagInfoFor (p : PeerID) (now : Int) : PeerInfo :=
  match cm.peers.get p with
  | some pi => pi
  | none => { id := p, firstSeen := now, temp := true }

/-- Write a record back. -/
def put (p : PeerID) (pi : PeerInfo) : BasicConnMgr := { cm with peers := cm.peers.set p pi }

def tagPeer (p : PeerID) (tag : String) (val : Int64) (now : Int) : BasicConnMgr :=
  let pi := cm.tagInfoFor p now
  cm.put p { pi with value := pi.value + (val - pi.tag tag), tags := pi.tags.set tag val }

def untagPeer (p : PeerID) (tag : String) : BasicConnMgr :=
  match cm.peers.get p with
  | none => cm
  | some pi => cm.put p { pi with value := pi.value - pi.tag tag, tags := pi.tags.erase tag }

def upsertTag (p : PeerID) (tag : String) (upsert : Int64 → Int64) (now : Int) : BasicConnMgr :=
  let pi := cm.tagInfoFor p now
  let oldval := pi.tag tag
  let newval := upsert oldval
  cm.put p { pi with value := pi.value + (newval - oldval), tags := pi.tags.set tag newval }

/-! ## Protection -/

def protect (id : PeerID) (tag : String) : BasicConnMgr :=
  let tags := (cm.protectedTags.get id).getD []
  { cm with protectedTags := cm.protectedTags.set id (tag :: tags.filter (· ≠ tag)) }

def unprotect (id : PeerID) (tag : String) : BasicConnMgr × Bool :=
  match cm.protectedTags.get id with
  | none => (cm, false)
  | some tags =>
    let tags := tags.filter (· ≠ tag)
    if tags = [] then ({ cm with protectedTags := cm.protectedTags.erase id }, false)
    else ({ cm with protectedTags := cm.protectedTags.set id tags }, true)

/-- Whether a trim passes over the peer: `cm.protected` has an entry for it. -/
def protects (id : PeerID) : Bool := (cm.protectedTags.get id).isSome

/-! ## Connections -/

def connected (c : Conn) (now : Int) : BasicConnMgr :=
  let p := c.remotePeer
  let pinfo : PeerInfo :=
    match cm.peers.get p with
    | none => { id := p, firstSeen := now }
    | some pinfo => if pinfo.temp then { pinfo with temp := false, firstSeen := now } else pinfo
  match pinfo.conns.get c with
  | some _ => cm.put p pinfo
  | none =>
    { cm.put p { pinfo with conns := pinfo.conns.set c now } with connCount := cm.connCount + 1 }

def disconnected (c : Conn) : BasicConnMgr :=
  match cm.peers.get c.remotePeer with
  | none => cm
  | some cinf =>
    match cinf.conns.get c with
    | none => cm
    | some _ =>
      let cinf := { cinf with conns := cinf.conns.erase c }
      let cm := if cinf.conns.entries = [] then { cm with peers := cm.peers.erase c.remotePeer }
        else cm.put c.remotePeer cinf
      { cm with connCount := cm.connCount - 1 }

end BasicConnMgr

end Dep2p.ConnMgr
