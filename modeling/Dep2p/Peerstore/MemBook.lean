import Dep2p.Lib.Table
import Dep2p.Lib.Reach
import Dep2p.Lib.IndexedHeap
import Dep2p.Peerstore.Basic

/- The address book in memory (`pstoremem/addr_book.go`).

   An entry is known by its pointer: the map holds one for a peer and an address, the
   expiry heap holds the entries whose TTL is below that of a connected peer, and the
   `heapIndex` of an entry is the index the heap keeps for its pointer. The map of maps
   of the source is one map here: an inner map is deleted as soon as it is empty. A loop
   over a map takes the entries in any order, which is an input of the call. -/
namespace Dep2p.Peerstore

open Lib

structure ExpiringAddr where
  addr : Multiaddr := []
  ttl : Int := 0
  expiry : Int := 0
  peer : PeerID := []
  deriving DecidableEq, Repr

variable (e : ExpiringAddr)

namespace ExpiringAddr

def expiredBy (t : Int) : Prop := e.expiry ≤ t

instance (e : ExpiringAddr) (t : Int) : Decidable (e.expiredBy t) :=
  inferInstanceAs (Decidable (_ ≤ _))

def isConnected : Prop := ttlIsConnected e.ttl

instance (e : ExpiringAddr) : Decidable e.isConnected := inferInstanceAs (Decidable (ttlIsConnected _))

def key : PeerID × Multiaddr := (e.peer, e.addr)

end ExpiringAddr

/-- `entry` is the memory the pointers below `allocated` point to. -/
structure PeerAddrs where
  entry : Nat → ExpiringAddr := fun _ => {}
  allocated : Nat := 0
  addrs : Table (PeerID × Multiaddr) Nat := {}
  expiringHeap : IndexedHeap Nat := .empty

variable (pa : PeerAddrs)

namespace PeerAddrs

def expiryOf (a : Nat) : Int := (pa.entry a).expiry

def delete (a : Nat) : PeerAddrs :=
  match pa.addrs.get (pa.entry a).key with
  | none => pa
  | some ea =>
    let heap := if pa.expiringHeap.index ea ≠ -1
      then pa.expiringHeap.remove pa.expiryOf (pa.expiringHeap.index a).toNat
      else pa.expiringHeap
    { pa with expiringHeap := heap, addrs := pa.addrs.erase (pa.entry a).key }

def findAddr (p : PeerID) (addr : Multiaddr) : Option Nat := pa.addrs.get (p, addr)

/-- The expiry of the root; read only where the heap is not empty. -/
def nextExpiry : Int := pa.expiryOf (pa.expiringHeap.item 0)

def popIfExpired (now : Int) : Option (Nat × PeerAddrs) :=
  if 0 < pa.expiringHeap.len ∧ pa.nextExpiry ≤ now then
    let popped := pa.expiringHeap.pop pa.expiryOf
    some (popped.1, { pa with
      expiringHeap := popped.2, addrs := pa.addrs.erase (pa.entry popped.1).key })
  else none

theorem len_popIfExpired {pa pa' : PeerAddrs} {now : Int} {ea : Nat}
    (h : pa.popIfExpired now = some (ea, pa')) : pa'.expiringHeap.len < pa.expiringHeap.len := by
  unfold popIfExpired at h
  split at h
  · rename_i hpop
    injection h with h
    injection h with _ h
    rw [← h]
    have hlen := IndexedHeap.len_pop pa.expiryOf pa.expiringHeap
    dsimp only
    omega
  · cases h

def update (a : Nat) : PeerAddrs :=
  if pa.expiringHeap.index a = -1 then pa
  else if (pa.entry a).isConnected then
    { pa with expiringHeap := pa.expiringHeap.remove pa.expiryOf (pa.expiringHeap.index a).toNat }
  else
    { pa with expiringHeap := pa.expiringHeap.fix pa.expiryOf (pa.expiringHeap.index a).toNat }

/-- The entry `a` with new contents. -/
def write (a : Nat) (e : ExpiringAddr) : PeerAddrs :=
  { pa with entry := Function.update pa.entry a e }

/-- A new pointer to `e`, outside the heap and in the map. -/
def alloc (e : ExpiringAddr) : PeerAddrs :=
  { entry := Function.update pa.entry pa.allocated e
    allocated := pa.allocated + 1
    addrs := pa.addrs.set e.key pa.allocated
    expiringHeap :=
      { pa.expiringHeap with index := Function.update pa.expiringHeap.index pa.allocated (-1) } }

def insert (e : ExpiringAddr) : PeerAddrs :=
  let pa' := pa.alloc e
  if e.isConnected then pa'
  else { pa' with expiringHeap := pa'.expiringHeap.push pa'.expiryOf pa.allocated }

def numUnconnectedAddrs : Nat := pa.expiringHeap.len

/-- The entries of `p`. -/
def ofPeer (p : PeerID) : List Nat :=
  (pa.addrs.entries.filter (·.1.1 = p)).map (·.2)

end PeerAddrs

structure PeerRecordState where
  envelope : Envelope
  seq : Nat
  deriving DecidableEq, Repr

structure MemoryAddrBook where
  addrs : PeerAddrs := {}
  signedPeerRecords : Table PeerID PeerRecordState := {}
  maxUnconnectedAddrs : Int
  maxSignedPeerRecords : Int

variable (mab : MemoryAddrBook)

namespace MemoryAddrBook

def newAddrBook (maxUnconnectedAddrs maxSignedPeerRecords : Int) : MemoryAddrBook :=
  { maxUnconnectedAddrs, maxSignedPeerRecords }

def maybeDeleteSignedPeerRecord (p : PeerID) : MemoryAddrBook :=
  if mab.addrs.ofPeer p = [] then
    { mab with signedPeerRecords := mab.signedPeerRecords.erase p }
  else mab

@[simp] theorem addrs_maybeDeleteSignedPeerRecord (p : PeerID) :
    (mab.maybeDeleteSignedPeerRecord p).addrs = mab.addrs := by
  unfold maybeDeleteSignedPeerRecord
  split <;> rfl

/-! ## Adding and setting addresses -/

/-- The body of the loop of `addAddrsUnlocked`. -/
def addOne (p : PeerID) (ttl exp : Int) (pa : PeerAddrs) (m : Option Multiaddr) : PeerAddrs :=
  match ownAddr p m with
  | none => pa
  | some addr =>
    match pa.findAddr p addr with
    | none => pa.insert { addr, expiry := exp, ttl, peer := p }
    | some a =>
      let e := pa.entry a
      if e.ttl < ttl ∨ e.expiry < exp then
        (pa.write a { e with
          ttl := if e.ttl < ttl then ttl else e.ttl
          expiry := if e.expiry < exp then exp else e.expiry }).update a
      else pa

def addAddrs (mab : MemoryAddrBook) (now : Int) (p : PeerID) (addrs : List (Option Multiaddr))
    (ttl : Int) : MemoryAddrBook :=
  let added :=
    if ttl ≤ 0 then mab
    else if ¬ ttlIsConnected ttl ∧ mab.maxUnconnectedAddrs ≤ mab.addrs.numUnconnectedAddrs then mab
    else { mab with addrs := addrs.foldl (addOne p ttl (now + ttl)) mab.addrs }
  added.maybeDeleteSignedPeerRecord p

/-- The body of the loop of `SetAddrs`; `cap` is `maxUnconnectedAddrs`. -/
def setOne (cap : Int) (p : PeerID) (ttl exp : Int) (pa : PeerAddrs) (m : Option Multiaddr) :
    PeerAddrs :=
  match ownAddr p m with
  | none => pa
  | some addr =>
    match pa.findAddr p addr with
    | some a =>
      if 0 < ttl then
        if (pa.entry a).isConnected ∧ ¬ ttlIsConnected ttl ∧ cap ≤ pa.numUnconnectedAddrs then
          pa.delete a
        else (pa.write a { pa.entry a with addr, expiry := exp, ttl }).update a
      else pa.delete a
    | none =>
      if 0 < ttl then
        if ¬ ttlIsConnected ttl ∧ cap ≤ pa.numUnconnectedAddrs then pa
        else pa.insert { addr, expiry := exp, ttl, peer := p }
      else pa

def setAddrs (now : Int) (p : PeerID) (addrs : List (Option Multiaddr)) (ttl : Int) :
    MemoryAddrBook :=
  { mab with addrs := addrs.foldl (setOne mab.maxUnconnectedAddrs p ttl (now + ttl)) mab.addrs
    }.maybeDeleteSignedPeerRecord p

/-- The body of the loop of `UpdateAddrs`. -/
def updateOne (cap oldTTL newTTL exp : Int) (pa : PeerAddrs) (a : Nat) : PeerAddrs :=
  if oldTTL = (pa.entry a).ttl then
    if newTTL = 0 then pa.delete a
    else if ttlIsConnected oldTTL ∧ ¬ ttlIsConnected newTTL ∧ cap ≤ pa.numUnconnectedAddrs then
      pa.delete a
    else (pa.write a { pa.entry a with ttl := newTTL, expiry := exp }).update a
  else pa

/-- `order` is the order in which the loop takes the entries of `p`. -/
def updateAddrs (now : Int) (p : PeerID) (oldTTL newTTL : Int) (order : List Nat) :
    MemoryAddrBook :=
  { mab with
    addrs := order.foldl (updateOne mab.maxUnconnectedAddrs oldTTL newTTL (now + newTTL)) mab.addrs
    }.maybeDeleteSignedPeerRecord p

def clearAddrs (p : PeerID) (order : List Nat) : MemoryAddrBook :=
  { mab with
    signedPeerRecords := mab.signedPeerRecords.erase p
    addrs := order.foldl PeerAddrs.delete mab.addrs }

/-- What `ConsumePeerRecord` does with a record it takes. -/
def storeRecord (now : Int) (env : Envelope) (rec : PeerRecord) (ttl : Int) : MemoryAddrBook :=
  { mab with signedPeerRecords := mab.signedPeerRecords.set rec.peerID ⟨env, rec.seq⟩
    }.addAddrs now rec.peerID rec.addrs ttl

def consumePeerRecord (mab : MemoryAddrBook) (now : Int) (env : Envelope) (ttl : Int) :
    Except ConsumeErr Bool × MemoryAddrBook :=
  match env.peerRecord with
  | .error e => (.error e, mab)
  | .ok rec =>
    match mab.signedPeerRecords.get rec.peerID with
    | some lastState =>
      if rec.seq < lastState.seq then (.ok false, mab)
      else (.ok true, mab.storeRecord now env rec ttl)
    | none =>
      if mab.maxSignedPeerRecords ≤ mab.signedPeerRecords.entries.length then
        (.error .tooManyRecords, mab)
      else (.ok true, mab.storeRecord now env rec ttl)

/-! ## Expiry and reading -/

def gc (mab : MemoryAddrBook) (now : Int) : MemoryAddrBook :=
  match _h : mab.addrs.popIfExpired now with
  | none => mab
  | some (ea, pa) =>
    ({ mab with addrs := pa }.maybeDeleteSignedPeerRecord (pa.entry ea).peer).gc now
termination_by mab.addrs.expiringHeap.len
decreasing_by
  rw [addrs_maybeDeleteSignedPeerRecord]
  exact PeerAddrs.len_popIfExpired _h

/-- `validAddrs` over the entries of `p`. -/
def getAddrs (now : Int) (p : PeerID) : List Multiaddr :=
  ((mab.addrs.ofPeer p).filter fun a => ¬ (mab.addrs.entry a).expiredBy now).map
    fun a => (mab.addrs.entry a).addr

/-! ## Calls -/

inductive Call where
  | addAddrs (now : Int) (p : PeerID) (addrs : List (Option Multiaddr)) (ttl : Int)
  | setAddrs (now : Int) (p : PeerID) (addrs : List (Option Multiaddr)) (ttl : Int)
  | updateAddrs (now : Int) (p : PeerID) (oldTTL newTTL : Int) (order : List Nat)
  | consumePeerRecord (now : Int) (env : Envelope) (ttl : Int)
  | clearAddrs (p : PeerID) (order : List Nat)
  | gc (now : Int)

def step (mab : MemoryAddrBook) : Call → MemoryAddrBook
  | .addAddrs now p addrs ttl => mab.addAddrs now p addrs ttl
  | .setAddrs now p addrs ttl => mab.setAddrs now p addrs ttl
  | .updateAddrs now p oldTTL newTTL order => mab.updateAddrs now p oldTTL newTTL order
  | .consumePeerRecord now env ttl => (mab.consumePeerRecord now env ttl).2
  | .clearAddrs p order => mab.clearAddrs p order
  | .gc now => mab.gc now

/-- A loop over the map takes every entry of the peer once. -/
def Call.Ranges : Call → Prop
  | .updateAddrs _ p _ _ order => order.Perm (mab.addrs.ofPeer p)
  | .clearAddrs p order => order.Perm (mab.addrs.ofPeer p)
  | _ => True

instance (mab : MemoryAddrBook) (c : Call) : Decidable (c.Ranges mab) := by
  cases c <;> unfold Call.Ranges <;> infer_instance

end MemoryAddrBook

end Dep2p.Peerstore
