import Mathlib.Logic.Function.Basic

/- What the resource manager knows of addresses: the per-subnet connection
   limiter (`conn_limiter.go`) and the allowlist (`allowlist.go`).

   `net/netip` addresses are fixed-width words. The limiter keeps one set of
   tables for each address family; a table of counts is created the first time
   it is needed, and an entry of a subnet table is created by the first look at
   it. Both loops of `addConn` are kept: the first creates entries and checks,
   the second counts, and a refusal in the first leaves the entries it created.

   Correspondence (Go ↔ Lean):
     `netip.Addr`, `netip.Prefix`           ↔ `Addr`, `NetPrefix`
     `Addr.Prefix`, `Prefix.Contains`       ↔ `Addr.toPrefix`, `NetPrefix.contains`
     `connLimiter.addConn`, `rmConn`        ↔ `ConnLimiter.addConn`, `rmConn`
     the fields with suffix `V4` and `V6`   ↔ the tables `v4` and `v6`
     `net.IPNet.Contains`                   ↔ `IPNet.contains`
     `Allowlist.Allowed`, `AllowedPeerAndMultiaddr` ↔ the same names

   The key of a subnet table is the text of a masked prefix in the source and the
   masked prefix itself here. The log lines of `rmConn` are left out. -/
namespace Dep2p.Rcmgr

inductive Addr where
  | v4 (a : BitVec 32)
  | v6 (a : BitVec 128)
  deriving DecidableEq, Repr

namespace Addr

def bitLen : Addr → Nat
  | .v4 _ => 32
  | .v6 _ => 128

def is6 : Addr → Bool
  | .v4 _ => false
  | .v6 _ => true

/-- The address with all but its first `n` bits cleared. -/
def mask : Addr → Nat → Addr
  | .v4 a, n => .v4 ((a >>> (32 - n)) <<< (32 - n))
  | .v6 a, n => .v6 ((a >>> (128 - n)) <<< (128 - n))

/-- `net.IP.To4`: an IPv4-mapped IPv6 address is the IPv4 address. -/
def to4 : Addr → Addr
  | .v4 a => .v4 a
  | .v6 a => if a >>> 32 = 0xffff#128 then .v4 (a.setWidth 32) else .v6 a

end Addr

structure NetPrefix where
  addr : Addr
  bits : Int
  deriving DecidableEq, Repr

/-- `Addr.Prefix`; `none` is its error. -/
def Addr.toPrefix (ip : Addr) (bits : Int) : Option NetPrefix :=
  if bits < 0 ∨ bits > ip.bitLen then none else some ⟨ip.mask bits.toNat, bits⟩

/-- An address never matches a prefix of the other family. -/
def NetPrefix.contains (p : NetPrefix) (ip : Addr) : Bool :=
  decide (0 ≤ p.bits ∧ p.bits ≤ p.addr.bitLen) && p.addr.bitLen == ip.bitLen &&
    p.addr.mask p.bits.toNat == ip.mask p.bits.toNat

structure ConnLimitPerSubnet where
  prefixLength : Int
  connCount : Int
  deriving DecidableEq, Repr

structure NetworkPrefixLimit where
  network : NetPrefix
  connCount : Int
  deriving DecidableEq, Repr

/-- Connection counts by masked prefix. -/
abbrev SubnetCounts := NetPrefix → Option Int

/-- The limits and counts of one address family. -/
structure FamilyLimits where
  networkPrefixLimit : List NetworkPrefixLimit
  connsPerNetworkPrefix : List Int := []
  connLimitPerSubnet : List ConnLimitPerSubnet
  connsPerLimit : List SubnetCounts := []

variable (t : FamilyLimits)

namespace FamilyLimits

/-- The counts of the network prefixes, created when first needed. -/
def initNetworkPrefix : FamilyLimits :=
  if t.connsPerNetworkPrefix.length = 0 ∧ 0 < t.networkPrefixLimit.length then
    { t with connsPerNetworkPrefix := List.replicate t.networkPrefixLimit.length 0 }
  else t

/-- The counts of the subnets, created when first needed. -/
def initPerLimit : FamilyLimits :=
  if t.connsPerLimit.length = 0 ∧ 0 < t.connLimitPerSubnet.length then
    { t with connsPerLimit := List.replicate t.connLimitPerSubnet.length fun _ => none }
  else t

/-- The first loop over the subnet limits, from the `i`-th limit on: whether all
have room, and the counts with an entry for every subnet looked at. -/
def checkSubnets (ip : Addr) :
    List ConnLimitPerSubnet → Nat → List SubnetCounts → List SubnetCounts × Bool
  | [], _, counts => (counts, true)
  | limit :: limits, i, counts =>
    match ip.toPrefix limit.prefixLength with
    | none => (counts, false)
    | some masked =>
      let table := counts.getD i fun _ => none
      let counts' := match table masked with
        | some _ => counts
        | none => counts.set i (Function.update table masked (some 0))
      if (table masked).getD 0 + 1 > limit.connCount then (counts', false)
      else checkSubnets ip limits (i + 1) counts'

/-- The second loop: one more connection in every subnet. -/
def countSubnets (ip : Addr) :
    List ConnLimitPerSubnet → Nat → List SubnetCounts → List SubnetCounts
  | [], _, counts => counts
  | limit :: limits, i, counts =>
    match ip.toPrefix limit.prefixLength with
    | none => countSubnets ip limits (i + 1) counts
    | some masked =>
      let table := counts.getD i fun _ => none
      countSubnets ip limits (i + 1)
        (counts.set i (Function.update table masked (some ((table masked).getD 0 + 1))))

/-- The loop of `rmConn`: one connection less in every subnet that has one; an
entry that reaches zero is deleted. -/
def uncountSubnets (ip : Addr) :
    List ConnLimitPerSubnet → Nat → List SubnetCounts → List SubnetCounts
  | [], _, counts => counts
  | limit :: limits, i, counts =>
    match ip.toPrefix limit.prefixLength with
    | none => uncountSubnets ip limits (i + 1) counts
    | some masked =>
      let table := counts.getD i fun _ => none
      match table masked with
      | none => uncountSubnets ip limits (i + 1) counts
      | some n =>
        if n = 0 then uncountSubnets ip limits (i + 1) counts
        else uncountSubnets ip limits (i + 1)
          (counts.set i (Function.update table masked (if n - 1 ≤ 0 then none else some (n - 1))))

/-- The first network prefix that contains the address decides; only without
one are the subnet limits consulted. -/
def addConn (ip : Addr) : FamilyLimits × Bool :=
  let t := t.initNetworkPrefix
  match t.networkPrefixLimit.findIdx? (·.network.contains ip) with
  | some i =>
    let count := t.connsPerNetworkPrefix.getD i 0
    if count + 1 > ((t.networkPrefixLimit[i]?).map (·.connCount)).getD 0 then (t, false)
    else ({ t with connsPerNetworkPrefix := t.connsPerNetworkPrefix.set i (count + 1) }, true)
  | none =>
    let t := t.initPerLimit
    match checkSubnets ip t.connLimitPerSubnet 0 t.connsPerLimit with
    | (counts, false) => ({ t with connsPerLimit := counts }, false)
    | (counts, true) =>
      ({ t with connsPerLimit := countSubnets ip t.connLimitPerSubnet 0 counts }, true)

def rmConn (ip : Addr) : FamilyLimits :=
  let t := t.initNetworkPrefix
  match t.networkPrefixLimit.findIdx? (·.network.contains ip) with
  | some i =>
    let count := t.connsPerNetworkPrefix.getD i 0
    if count ≤ 0 then t
    else { t with connsPerNetworkPrefix := t.connsPerNetworkPrefix.set i (count - 1) }
  | none =>
    let t := t.initPerLimit
    { t with connsPerLimit := uncountSubnets ip t.connLimitPerSubnet 0 t.connsPerLimit }

end FamilyLimits

structure ConnLimiter where
  v4 : FamilyLimits
  v6 : FamilyLimits

namespace ConnLimiter

def addConn (cl : ConnLimiter) (ip : Addr) : ConnLimiter × Bool :=
  if ip.is6 then
    let (t, ok) := cl.v6.addConn ip
    ({ cl with v6 := t }, ok)
  else
    let (t, ok) := cl.v4.addConn ip
    ({ cl with v4 := t }, ok)

def rmConn (cl : ConnLimiter) (ip : Addr) : ConnLimiter :=
  if ip.is6 then { cl with v6 := cl.v6.rmConn ip } else { cl with v4 := cl.v4.rmConn ip }

def defaultMaxConcurrentConns : Int := 8

/-- `newConnLimiter`; the loopback networks are not limited. -/
def newConnLimiter : ConnLimiter :=
  { v4 :=
      { networkPrefixLimit := [⟨⟨.v4 0x7f000000#32, 8⟩, Int64.maxValue.toInt⟩]
        connLimitPerSubnet := [⟨32, defaultMaxConcurrentConns⟩] }
    v6 :=
      { networkPrefixLimit := [⟨⟨.v6 1#128, 128⟩, Int64.maxValue.toInt⟩]
        connLimitPerSubnet := [⟨56, defaultMaxConcurrentConns⟩, ⟨48, 8 * defaultMaxConcurrentConns⟩] } }

end ConnLimiter

/-! ## The allowlist -/

/-- `net.IPNet` of a CIDR mask: `ones` leading ones, of the width of `ip`. -/
structure IPNet where
  ip : Addr
  ones : Nat
  deriving DecidableEq, Repr

/-- `IPNet.Contains`. A network number that is an IPv4-mapped IPv6 address is
read as IPv4, with the last 32 bits of its mask. -/
def IPNet.contains (n : IPNet) (ip : Addr) : Bool :=
  let nn := n.ip.to4
  let ones := if n.ip.is6 && !nn.is6 then n.ones - 96 else n.ones
  let ip := ip.to4
  nn.bitLen == ip.bitLen && nn.mask ones == ip.mask ones

/-- The endpoint of a connection, as far as the manager looks at it: what
`manet.ToIP` finds in the multiaddr. -/
structure Endpoint where
  toIP : Option Addr
  deriving DecidableEq, Repr

structure Allowlist where
  allowedNetworks : List IPNet := []
  allowedPeerByNetwork : List (String × List IPNet) := []
  deriving DecidableEq, Repr

namespace Allowlist

def allowed (al : Allowlist) (ma : Endpoint) : Bool :=
  match ma.toIP with
  | none => false
  | some ip => al.allowedNetworks.any (·.contains ip) ||
      al.allowedPeerByNetwork.any fun entry => entry.2.any (·.contains ip)

def allowedPeerAndMultiaddr (al : Allowlist) (peerID : String) (ma : Endpoint) : Bool :=
  match ma.toIP with
  | none => false
  | some ip => al.allowedNetworks.any (·.contains ip) ||
      match al.allowedPeerByNetwork.lookup peerID with
      | none => false
      | some expectedNetworks => expectedNetworks.any (·.contains ip)

end Allowlist

end Dep2p.Rcmgr
