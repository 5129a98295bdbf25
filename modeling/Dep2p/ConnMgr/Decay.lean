import Dep2p.ConnMgr.Select

/- The decayer of the connection manager (`decay.go`).

   A decaying tag is allocated once and known by the number of its allocation; the map of
   names holds the tags that are not closed yet. `Bump`, `Remove` and `Close` of a tag only
   put a command in a queue of 128 places and fail when it is full. The background loop
   takes one event at a time: a tick of the clock or the head of one of the queues, and
   which of them comes next is up to the run. A decay function may look at the clock, so
   it is given the time.

   Correspondence (Go ↔ Lean):
     `decayer.RegisterDecayingTag`              ↔ `registerDecayingTag`
     `decayingTag.Bump`, `Remove`, `Close`      ↔ `bump`, `remove`, `close`
     the cases of `decayer.process`             ↔ `tick`, `takeBump`, `takeRemove`, `takeClose` -/
namespace Dep2p.ConnMgr

open Lib

structure DecayingTag where
  name : String
  interval : Int
  nextTick : Int
  /-- The value after a decay at a time, and whether to remove it. -/
  decayFn : Int → DecayingValue → Int64 × Bool
  bumpFn : DecayingValue → Int64 → Int64
  closed : Bool := false

structure BumpCmd where
  peer : PeerID
  tag : TagID
  delta : Int64
  deriving DecidableEq, Repr

structure RemoveCmd where
  peer : PeerID
  tag : TagID
  deriving DecidableEq, Repr

structure Decayer where
  resolution : Int
  lastTick : Int
  knownTags : Table String TagID := {}
  /-- Every tag that was ever registered. -/
  tags : List DecayingTag := []
  bumpTagCh : List BumpCmd := []
  removeTagCh : List RemoveCmd := []
  closeTagCh : List TagID := []

inductive DecayErr where
  /-- There is a tag with this name already. -/
  | exists
  | closed
  /-- The queue of commands is full. -/
  | full
  deriving DecidableEq, Repr

/-- The room of each command channel. -/
def queueCap : Nat := 128

namespace Decayer

variable (d : Decayer)

def registerDecayingTag (name : String) (interval : Int)
    (decayFn : Int → DecayingValue → Int64 × Bool) (bumpFn : DecayingValue → Int64 → Int64) :
    Except DecayErr TagID × Decayer :=
  match d.knownTags.get name with
  | some _ => (.error .exists, d)
  | none =>
    let interval := if interval < d.resolution then d.resolution else interval
    let tag : DecayingTag :=
      { name, interval, nextTick := d.lastTick + interval,
        decayFn, bumpFn }
    (.ok d.tags.length, { d with
      knownTags := d.knownTags.set name d.tags.length, tags := d.tags ++ [tag] })

/-- Whether the tag was closed; a number that no tag has is treated as closed. -/
def isClosed (t : TagID) : Bool := (d.tags[t]?.map (·.closed)).getD true

def bump (t : TagID) (p : PeerID) (delta : Int64) : Except DecayErr Unit × Decayer :=
  if d.isClosed t then (.error .closed, d)
  else if d.bumpTagCh.length < queueCap then
    (.ok (), { d with bumpTagCh := d.bumpTagCh ++ [⟨p, t, delta⟩] })
  else (.error .full, d)

def remove (t : TagID) (p : PeerID) : Except DecayErr Unit × Decayer :=
  if d.isClosed t then (.error .closed, d)
  else if d.removeTagCh.length < queueCap then
    (.ok (), { d with removeTagCh := d.removeTagCh ++ [⟨p, t⟩] })
  else (.error .full, d)

/-- A tag is marked closed even when the queue has no room for the command. -/
def close (t : TagID) : Except DecayErr Unit × Decayer :=
  if d.isClosed t then (.ok (), d)
  else
    let d := { d with tags := d.tags.modify t fun tag => { tag with closed := true } }
    if d.closeTagCh.length < queueCap then (.ok (), { d with closeTagCh := d.closeTagCh ++ [t] })
    else (.error .full, d)

/-- The known tags whose next tick is not after `now`. -/
def visit (now : Int) : List TagID :=
  (d.knownTags.entries.map (·.2)).filter fun t =>
    (d.tags[t]?.map fun tag => !decide (now < tag.nextTick)).getD false

end Decayer

/-! ## What the loop does to a record -/

namespace PeerInfo

variable (pi : PeerInfo)

/-- One decaying value of a record, at a tick. -/
def decayOne (d : Decayer) (visit : List TagID) (now : Int) (pi : PeerInfo)
    (e : TagID × DecayingValue) : PeerInfo :=
  match d.tags[e.1]? with
  | none => pi
  | some tag =>
    if e.1 ∈ visit then
      match tag.decayFn now e.2 with
      | (_, true) =>
        { pi with value := pi.value + (0 - e.2.value), decaying := pi.decaying.erase e.1 }
      | (after, false) =>
        { pi with
          value := pi.value + (after - e.2.value)
          decaying := pi.decaying.set e.1 { e.2 with value := after, lastVisit := now } }
    else pi

def decay (d : Decayer) (visit : List TagID) (now : Int) : PeerInfo :=
  pi.decaying.entries.foldl (decayOne d visit now) pi

def bump (d : Decayer) (cmd : BumpCmd) (now : Int) : PeerInfo :=
  let v : DecayingValue := (pi.decaying.get cmd.tag).getD
    { tag := cmd.tag, peer := cmd.peer, lastVisit := now, added := now, value := 0 }
  match d.tags[v.tag]? with
  | none => pi
  | some tag =>
    let value := tag.bumpFn v cmd.delta
    { pi with
      value := pi.value + (value - v.value)
      decaying := pi.decaying.set cmd.tag { v with value, lastVisit := now } }

def removeDecaying (t : TagID) : PeerInfo :=
  match pi.decaying.get t with
  | none => pi
  | some v => { pi with value := pi.value - v.value, decaying := pi.decaying.erase t }

end PeerInfo

/-! ## The manager with its decayer -/

structure Manager where
  cm : BasicConnMgr
  decayer : Decayer

namespace Manager

def init (cfg : Config) (resolution now : Int) : Manager :=
  { cm := { cfg }, decayer := { resolution, lastTick := now } }

variable (m : Manager)

def tick (now : Int) : Manager :=
  let d := { m.decayer with lastTick := now }
  let visit := d.visit now
  { cm := { m.cm with peers := m.cm.peers.mapValues fun pi => pi.decay d visit now }
    decayer := { d with tags := d.tags.mapIdx fun t tag =>
      if t ∈ visit then { tag with nextTick := tag.nextTick + tag.interval } else tag } }

def takeBump (now : Int) : Manager :=
  match m.decayer.bumpTagCh with
  | [] => m
  | cmd :: rest =>
    { cm := m.cm.put cmd.peer ((m.cm.tagInfoFor cmd.peer now).bump m.decayer cmd now)
      decayer := { m.decayer with bumpTagCh := rest } }

/-- The record is made even when there is nothing to remove. -/
def takeRemove (now : Int) : Manager :=
  match m.decayer.removeTagCh with
  | [] => m
  | cmd :: rest =>
    { cm := m.cm.put cmd.peer ((m.cm.tagInfoFor cmd.peer now).removeDecaying cmd.tag)
      decayer := { m.decayer with removeTagCh := rest } }

def takeClose : Manager :=
  match m.decayer.closeTagCh with
  | [] => m
  | t :: rest =>
    let d := { m.decayer with closeTagCh := rest }
    { cm := { m.cm with peers := m.cm.peers.mapValues fun pi => pi.removeDecaying t }
      decayer := match d.tags[t]? with
        | none => d
        | some tag => { d with knownTags := d.knownTags.erase tag.name } }

/-- What may happen to a manager. -/
inductive Call where
  | tagPeer (p : PeerID) (tag : String) (val : Int64) (now : Int)
  | untagPeer (p : PeerID) (tag : String)
  | upsertTag (p : PeerID) (tag : String) (upsert : Int64 → Int64) (now : Int)
  | protect (p : PeerID) (tag : String)
  | unprotect (p : PeerID) (tag : String)
  | connected (c : Conn) (now : Int)
  | disconnected (c : Conn)
  | trim (stat : Conn → ConnStats) (sorter : PeerSort stat false) (now : Int)
  | registerDecayingTag (name : String) (interval : Int)
      (decayFn : Int → DecayingValue → Int64 × Bool) (bumpFn : DecayingValue → Int64 → Int64)
  | bump (t : TagID) (p : PeerID) (delta : Int64)
  | remove (t : TagID) (p : PeerID)
  | close (t : TagID)
  | tick (now : Int)
  | takeBump (now : Int)
  | takeRemove (now : Int)
  | takeClose

def step (m : Manager) : Call → Manager
  | .tagPeer p tag val now => { m with cm := m.cm.tagPeer p tag val now }
  | .untagPeer p tag => { m with cm := m.cm.untagPeer p tag }
  | .upsertTag p tag upsert now => { m with cm := m.cm.upsertTag p tag upsert now }
  | .protect p tag => { m with cm := m.cm.protect p tag }
  | .unprotect p tag => { m with cm := (m.cm.unprotect p tag).1 }
  | .connected c now => { m with cm := m.cm.connected c now }
  | .disconnected c => { m with cm := m.cm.disconnected c }
  | .trim _ sorter now => { m with cm := (m.cm.getConnsToClose sorter now).2 }
  | .registerDecayingTag name interval decayFn bumpFn =>
    { m with decayer := (m.decayer.registerDecayingTag name interval decayFn bumpFn).2 }
  | .bump t p delta => { m with decayer := (m.decayer.bump t p delta).2 }
  | .remove t p => { m with decayer := (m.decayer.remove t p).2 }
  | .close t => { m with decayer := (m.decayer.close t).2 }
  | .tick now => m.tick now
  | .takeBump now => m.takeBump now
  | .takeRemove now => m.takeRemove now
  | .takeClose => m.takeClose

end Manager

end Dep2p.ConnMgr
