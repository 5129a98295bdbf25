import Mathlib.Data.List.Sort
import Dep2p.Lib.Reach
import Dep2p.Multiaddr.Component
import Dep2p.Peerstore.Basic

/- The address book over a datastore (`pstoreds/addr_book.go`).

   A peer has one record in the datastore, and the cache may hold a pointer to a copy of
   it that the calls work on. Every call works on the record of one peer, so the two maps
   are one map of pairs here (`Slot`). Whether a lookup in the cache hits is an input of
   the call: a lookup that misses finds that the entry was evicted. Without a cache
   nothing is ever added to it.

   Times are nanoseconds; the expiry of an entry is in whole seconds, as `Unix` gives
   them. The datastore keeps the last value put under a key, a stored record decodes to
   what was encoded, and a batch is applied when it is committed. `Addrs` parses what is stored:
   it returns no address of a peer if the bytes of one of them are not valid. -/
namespace Dep2p.Peerstore

/-- `time.Time.Unix`. -/
def unix (t : Int) : Int := t / 1000000000

section

open Multiaddr

variable {ε : Type} (ps : Protocols ε)

/-- The bytes of an address. -/
def addrBytes (m : Multiaddr) : Bytes :=
  m.flatMap fun c => Varint.putUvarint c.code ++
    Wire.lengthBytes (ps.protocolWithCode c.code) c.rawValue.length ++ c.rawValue

/-- `NewMultiaddrBytes` takes the bytes of the address. -/
def parses (m : Multiaddr) : Bool := (validateBytes ps (addrBytes ps m)).isOk

/-- The addresses parsed from their bytes; where one of them does not parse there are none. -/
def reparse (addrs : List Multiaddr) : List Multiaddr :=
  if addrs.all (parses ps) then addrs else []

end

structure AddrEntry where
  addr : Multiaddr
  ttl : Int
  expiry : Int
  deriving DecidableEq, Repr

structure CertifiedRecord where
  seq : Nat
  raw : Envelope
  deriving DecidableEq, Repr

/-- The record of a peer as it is stored. -/
structure AddrBookRecord where
  addrs : List AddrEntry := []
  certifiedRecord : Option CertifiedRecord := none
  deriving DecidableEq, Repr

/-- The record of a peer as the calls work on it; `nilAddrs` says that the slice of
addresses is nil and not only empty. -/
structure AddrsRecord extends AddrBookRecord where
  dirty : Bool := false
  nilAddrs : Bool := false
  deriving DecidableEq, Repr

/-- What `sort.Slice` makes of the entries of a record: some order by expiry. -/
structure ExpirySort where
  sort : List AddrEntry → List AddrEntry
  perm : ∀ l, (sort l).Perm l
  sorted : ∀ l, (sort l).Pairwise (·.expiry ≤ ·.expiry)

/-- The stable order. -/
def ExpirySort.stable : ExpirySort where
  sort l := l.insertionSort (·.expiry ≤ ·.expiry)
  perm l := List.perm_insertionSort _ l
  sorted l :=
    haveI : Std.Total (fun a b : AddrEntry => a.expiry ≤ b.expiry) := ⟨fun _ _ => Int.le_total _ _⟩
    haveI : IsTrans AddrEntry (fun a b => a.expiry ≤ b.expiry) := ⟨fun _ _ _ => Int.le_trans⟩
    List.pairwise_insertionSort _ l

/-- The entries after the expired ones at the front. -/
def removeExpired (entries : List AddrEntry) (now : Int) : List AddrEntry :=
  entries.dropWhile (·.expiry ≤ now)

namespace AddrsRecord

def hasExpiredAddrs (r : AddrsRecord) (now : Int) : Bool :=
  match r.addrs with
  | [] => false
  | e :: _ => e.expiry ≤ now

/-- Whether the record changed, and the record. -/
def clean (sorter : ExpirySort) (r : AddrsRecord) (now : Int) : Bool × AddrsRecord :=
  if !r.dirty && !r.hasExpiredAddrs (unix now) then (false, r)
  else if r.addrs.length = 0 then (true, r)
  else
    let sorted := if r.dirty ∧ 1 < r.addrs.length then sorter.sort r.addrs else r.addrs
    let left := removeExpired sorted (unix now)
    (r.dirty || left.length != r.addrs.length, { r with addrs := left })

end AddrsRecord

/-- What cache and datastore hold for a peer. -/
structure Slot where
  cached : Option AddrsRecord := none
  stored : Option AddrBookRecord := none
  deriving DecidableEq, Repr

namespace Slot

/-- The record written to the datastore, where one without addresses is deleted. -/
def flush (s : Slot) (pr : AddrsRecord) : AddrsRecord × Slot :=
  ({ pr with dirty := false },
    { s with stored := if pr.addrs = [] then none else some pr.toAddrBookRecord })

/-- The record behind the cached pointer, where there is one, has become `pr`. -/
def hold (s : Slot) (pr : AddrsRecord) : Slot := { s with cached := s.cached.map fun _ => pr }

/-- `caching` says that the book has a cache, `hit` that a cached record is still
there; `keep` and `update` are the parameters `cache` and `update` of the source. -/
def loadRecord (sorter : ExpirySort) (caching hit : Bool) (s : Slot) (now : Int)
    (keep update : Bool) : AddrsRecord × Slot :=
  match if hit then s.cached else none with
  | some pr =>
    let (chgd, pr) := pr.clean sorter now
    if chgd && update then
      let (pr, s) := s.flush pr
      (pr, s.hold pr)
    else (pr, s.hold pr)
  | none =>
    let s : Slot := { s with cached := none }
    let (pr, s) :=
      match s.stored with
      | none => (({ nilAddrs := true } : AddrsRecord), s)
      | some data =>
        let (chgd, pr) := (({ data with } : AddrsRecord)).clean sorter now
        if chgd && update then s.flush pr else (pr, s)
    (pr, if keep && caching then { s with cached := some pr } else s)

/-- `flush`, seen through the cached pointer. -/
def flushHeld (s : Slot) (pr : AddrsRecord) : Slot :=
  let (pr, s) := s.flush pr
  s.hold pr

end Slot

inductive TtlWriteMode where
  | override
  | extend
  deriving DecidableEq, Repr

/-- What `setAddrs` writes into the entry of an address that is already there. -/
def AddrEntry.rewrite (mode : TtlWriteMode) (ttl newExp : Int) (e : AddrEntry) : AddrEntry :=
  match mode with
  | .override => { e with ttl, expiry := newExp }
  | .extend =>
    { e with
      ttl := if e.ttl < ttl then ttl else e.ttl
      expiry := if e.expiry < newExp then newExp else e.expiry }

/-- What `UpdateAddrs` makes of an entry. -/
def AddrEntry.retime (oldTTL newTTL newExp : Int) (e : AddrEntry) : AddrEntry :=
  if e.ttl ≠ oldTTL then e else { e with ttl := newTTL, expiry := newExp }

/-- `updateExisting`: the map of `setAddrs` holds the last entry of an address. -/
def updateExisting (mode : TtlWriteMode) (ttl newExp : Int) (incoming : Multiaddr) :
    List AddrEntry → Option (List AddrEntry)
  | [] => none
  | e :: es =>
    match updateExisting mode ttl newExp incoming es with
    | some es' => some (e :: es')
    | none => if e.addr = incoming then some (e.rewrite mode ttl newExp :: es) else none

/-- The loop of `setAddrs`: the entries of the record, and the new ones that will be
appended; an address that is not in the record is new however often it comes. -/
def mergeAddrs (mode : TtlWriteMode) (ttl newExp : Int) :
    List AddrEntry × List AddrEntry → List Multiaddr → List AddrEntry × List AddrEntry
  | acc, [] => acc
  | (old, entries), incoming :: rest =>
    match updateExisting mode ttl newExp incoming old with
    | some old' => mergeAddrs mode ttl newExp (old', entries) rest
    | none => mergeAddrs mode ttl newExp (old, entries ++ [⟨incoming, ttl, newExp⟩]) rest

/-- The loop of `deleteInPlace` from index `i` on, over a slice it writes to. -/
def deleteLoop (addrs : List Multiaddr) : (steps i : Nat) → List AddrEntry → Nat →
    List AddrEntry × Nat
  | 0, _, s, survived => (s, survived)
  | steps + 1, i, s, survived =>
    match s[i]? with
    | none => (s, survived)
    | some e =>
      if e.addr ∈ addrs then
        let survived := survived - 1
        if survived = 0 then (s, survived)
        else deleteLoop addrs steps (i + 1) (s.set i (s.getD survived e)) survived
      else deleteLoop addrs steps (i + 1) s survived

def deleteInPlace (s : List AddrEntry) (addrs : List Multiaddr) : List AddrEntry :=
  if addrs = [] then s
  else
    let (s, survived) := deleteLoop addrs s.length 0 s s.length
    s.take survived

namespace Slot

variable (sorter : ExpirySort) (caching : Bool)

def setAddrs (hit : Bool) (s : Slot) (now : Int) (addrs : List Multiaddr) (ttl : Int)
    (mode : TtlWriteMode) : Slot :=
  if addrs = [] then s
  else
    let (pr, s) := s.loadRecord sorter caching hit now true false
    let (old, entries) := mergeAddrs mode ttl (unix (now + ttl)) (pr.addrs, []) addrs
    let pr : AddrsRecord :=
      { pr with
        addrs := old ++ entries
        dirty := true
        nilAddrs := pr.nilAddrs && (old ++ entries).isEmpty }
    s.flushHeld (pr.clean sorter now).2

def deleteAddrs (hit : Bool) (s : Slot) (now : Int) (addrs : List Multiaddr) : Slot :=
  let (pr, s) := s.loadRecord sorter caching hit now false false
  if pr.nilAddrs then s
  else
    let pr : AddrsRecord := { pr with addrs := deleteInPlace pr.addrs addrs, dirty := true }
    s.flushHeld (pr.clean sorter now).2

def updateAddrs (hit : Bool) (s : Slot) (now oldTTL newTTL : Int) : Slot :=
  let (pr, s) := s.loadRecord sorter caching hit now true false
  let newExp := unix (now + newTTL)
  let pr : AddrsRecord :=
    { pr with
      addrs := pr.addrs.map (AddrEntry.retime oldTTL newTTL newExp)
      dirty := pr.dirty || pr.addrs.any fun e => e.ttl = oldTTL }
  let (chgd, pr) := pr.clean sorter now
  if chgd then s.flushHeld pr else s.hold pr

def latestPeerRecordSeq (hit : Bool) (s : Slot) (now : Int) : Nat × Slot :=
  let (pr, s) := s.loadRecord sorter caching hit now true false
  (if pr.addrs = [] then 0 else (pr.certifiedRecord.map (·.seq)).getD 0, s)

def storeSignedPeerRecord (hit : Bool) (s : Slot) (now : Int) (env : Envelope) (rec : PeerRecord) :
    Slot :=
  let (pr, s) := s.loadRecord sorter caching hit now true false
  s.flushHeld { pr with certifiedRecord := some ⟨rec.seq, env⟩, dirty := true }

/-- The part of `ConsumePeerRecord` after the checks of the envelope, with one lookup in
the cache for each of its three loads. -/
def consumeRecord (hits : Bool × Bool × Bool) (s : Slot) (now : Int) (env : Envelope)
    (rec : PeerRecord) (ttl : Int) : Bool × Slot :=
  let (seq, s) := s.latestPeerRecordSeq sorter caching hits.1 now
  if rec.seq < seq then (false, s)
  else
    let s := s.setAddrs sorter caching hits.2.1 now (cleanAddrs rec.addrs rec.peerID) ttl .extend
    (true, s.storeSignedPeerRecord sorter caching hits.2.2 now env rec)

def getPeerRecord (hit : Bool) (s : Slot) (now : Int) : Option Envelope × Slot :=
  let (pr, s) := s.loadRecord sorter caching hit now true false
  (if pr.addrs = [] then none else pr.certifiedRecord.map (·.raw), s)

def addrs {ε : Type} (ps : Multiaddr.Protocols ε) (hit : Bool) (s : Slot) (now : Int) :
    List Multiaddr × Slot :=
  let (pr, s) := s.loadRecord sorter caching hit now true true
  (reparse ps (pr.addrs.map (·.addr)), s)

/-- What `purgeStore` does with the stored record of a peer. -/
def purge (s : Slot) (now : Int) : Slot :=
  match s.stored with
  | none => s
  | some data =>
    let (chgd, record) := (({ data with } : AddrsRecord)).clean sorter now
    if chgd then { (s.flush record).2 with cached := none } else s

end Slot

structure DsAddrBook where
  caching : Bool
  slots : PeerID → Slot := fun _ => {}

namespace DsAddrBook

def update (ab : DsAddrBook) (p : PeerID) (s : Slot) : DsAddrBook :=
  { ab with slots := Function.update ab.slots p s }

/-- A call, with its time and what its lookups in the cache find. -/
inductive Call where
  | addAddrs (now : Int) (p : PeerID) (addrs : List (Option Multiaddr)) (ttl : Int) (hit : Bool)
  | setAddrs (now : Int) (p : PeerID) (addrs : List (Option Multiaddr)) (ttl : Int) (hit : Bool)
  | updateAddrs (now : Int) (p : PeerID) (oldTTL newTTL : Int) (hit : Bool)
  | consumePeerRecord (now : Int) (env : Envelope) (ttl : Int) (hits : Bool × Bool × Bool)
  | clearAddrs (now : Int) (p : PeerID)
  | addrs (now : Int) (p : PeerID) (hit : Bool)
  | getPeerRecord (now : Int) (p : PeerID) (hit : Bool)
  | purgeStore (now : Int)

inductive Reply where
  | done
  | addrs (addrs : List Multiaddr)
  | peerRecord (env : Option Envelope)
  | consumed (res : Except ConsumeErr Bool)
  deriving DecidableEq

def Call.now : Call → Int
  | .addAddrs now .. | .setAddrs now .. | .updateAddrs now .. | .consumePeerRecord now ..
  | .clearAddrs now _ | .addrs now .. | .getPeerRecord now .. | .purgeStore now => now

variable (sorter : ExpirySort)

def addAddrs (ab : DsAddrBook) (now : Int) (p : PeerID) (addrs : List (Option Multiaddr)) (ttl : Int)
    (hit : Bool) : DsAddrBook :=
  if ttl ≤ 0 then ab
  else ab.update p
    ((ab.slots p).setAddrs sorter ab.caching hit now (cleanAddrs addrs p) ttl .extend)

def setAddrs (ab : DsAddrBook) (now : Int) (p : PeerID) (addrs : List (Option Multiaddr)) (ttl : Int)
    (hit : Bool) : DsAddrBook :=
  if ttl ≤ 0 then
    ab.update p ((ab.slots p).deleteAddrs sorter ab.caching hit now (cleanAddrs addrs p))
  else ab.update p
    ((ab.slots p).setAddrs sorter ab.caching hit now (cleanAddrs addrs p) ttl .override)

def consumePeerRecord (ab : DsAddrBook) (now : Int) (env : Envelope) (ttl : Int)
    (hits : Bool × Bool × Bool) : Except ConsumeErr Bool × DsAddrBook :=
  match env.peerRecord with
  | .error e => (.error e, ab)
  | .ok rec =>
    let (taken, s) := (ab.slots rec.peerID).consumeRecord sorter ab.caching hits now env rec ttl
    (.ok taken, ab.update rec.peerID s)

def exec {ε : Type} (ps : Multiaddr.Protocols ε) (ab : DsAddrBook) : Call → Reply × DsAddrBook
  | .addAddrs now p addrs ttl hit => (.done, ab.addAddrs sorter now p addrs ttl hit)
  | .setAddrs now p addrs ttl hit => (.done, ab.setAddrs sorter now p addrs ttl hit)
  | .updateAddrs now p oldTTL newTTL hit =>
    (.done, ab.update p ((ab.slots p).updateAddrs sorter ab.caching hit now oldTTL newTTL))
  | .consumePeerRecord now env ttl hits =>
    let (res, ab) := ab.consumePeerRecord sorter now env ttl hits
    (.consumed res, ab)
  | .clearAddrs _ p => (.done, ab.update p {})
  | .addrs now p hit =>
    let (addrs, s) := (ab.slots p).addrs sorter ab.caching ps hit now
    (.addrs addrs, ab.update p s)
  | .getPeerRecord now p hit =>
    let (env, s) := (ab.slots p).getPeerRecord sorter ab.caching hit now
    (.peerRecord env, ab.update p s)
  | .purgeStore now => (.done, { ab with slots := fun p => (ab.slots p).purge sorter now })

end DsAddrBook

end Dep2p.Peerstore
