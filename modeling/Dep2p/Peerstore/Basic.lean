import Dep2p.Multiaddr.Basic

/- What both address books of the peerstore take and store: peer IDs, the TTL of a
   connected peer, the address an argument names, and signed peer records.

   Durations and times are nanoseconds. An envelope is what the books see of it: the
   peer ID of the key that signed it, and the record its payload decodes to. -/
namespace Dep2p.Multiaddr

def P_P2P : Nat := 421

end Dep2p.Multiaddr

namespace Dep2p.Peerstore

/-- A `peer.ID` is a byte string; the empty one is no ID. -/
abbrev PeerID := List UInt8

/-- `math.MaxInt64 - 1`. -/
def connectedAddrTTL : Int := 9223372036854775806

def ttlIsConnected (ttl : Int) : Prop := connectedAddrTTL ≤ ttl

instance (ttl : Int) : Decidable (ttlIsConnected ttl) := inferInstanceAs (Decidable (_ ≤ _))

/-- `peer.SplitAddr`: the address without its `/p2p` component at the end, and the ID
of that component. The address is nil where nothing is left. -/
def splitAddr : Option Multiaddr → Option Multiaddr × PeerID
  | none => (none, [])
  | some m =>
    match m.getLast? with
    | none => (some m, [])
    | some c =>
      if c.code ≠ Multiaddr.P_P2P then (some m, [])
      else (if m.length = 1 then none else some m.dropLast, c.rawValue)

/-- The address that the books store for the argument `m` of a call about `p`; an
argument that is nil or names another peer is passed over. -/
def ownAddr (p : PeerID) (m : Option Multiaddr) : Option Multiaddr :=
  match splitAddr m with
  | (none, _) => none
  | (some a, addrPid) => if addrPid ≠ [] ∧ addrPid ≠ p then none else some a

/-- The addresses for `pid` among the arguments of a call. -/
def cleanAddrs (addrs : List (Option Multiaddr)) (pid : PeerID) : List Multiaddr :=
  addrs.filterMap (ownAddr pid)

structure PeerRecord where
  peerID : PeerID
  addrs : List (Option Multiaddr)
  seq : Nat
  deriving DecidableEq, Repr

inductive Record where
  | peerRecord (rec : PeerRecord)
  | other
  deriving DecidableEq, Repr

/-- A signed envelope; `record` is none where the payload does not decode. -/
structure Envelope where
  signer : Option PeerID
  record : Option Record
  deriving DecidableEq, Repr

inductive ConsumeErr where
  /-- The payload of the envelope does not decode. -/
  | badRecord
  /-- 无法处理信封:不是PeerRecord, or 信封未包含PeerRecord in the datastore book. -/
  | notPeerRecord
  /-- 签名密钥与PeerRecord中的PeerID不匹配 -/
  | keyMismatch
  /-- 签名对等记录数量过多 -/
  | tooManyRecords
  deriving DecidableEq, Repr

/-- The checks both books make on an envelope. -/
def Envelope.peerRecord (env : Envelope) : Except ConsumeErr PeerRecord :=
  match env.record with
  | none => .error .badRecord
  | some .other => .error .notPeerRecord
  | some (.peerRecord rec) =>
    if env.signer = some rec.peerID then .ok rec else .error .keyMismatch

end Dep2p.Peerstore
