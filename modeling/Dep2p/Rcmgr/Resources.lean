import Mathlib.Algebra.Order.BigOperators.Group.Finset
import Mathlib.Algebra.Ring.Int.Defs

/- Resource counters of one scope (`scope.go`, `resources`).

   A scope counts memory, inbound and outbound streams, inbound and outbound
   connections and file descriptors against a `Limit` fixed when it is created.
   Memory is Go's `int64` and is kept as `Int64`: the checks below are about its
   overflow. Every unit of the other counters stands for a live stream,
   connection or descriptor, so they never come near the 64-bit range and are
   kept as `Int`.

   Correspondence (Go ↔ Lean):
     `addInt64WithOverflow`, `mulInt64WithOverflow` ↔ the same names
     `resources.checkMemory`                        ↔ `memoryThreshold`, `checkMemory`
     `resources.reserveMemory`, `releaseMemory`     ↔ `reserveMemory`, `releaseMemory`
     `resources.addStreams`, `removeStreams`        ↔ `addStreams`, `removeStreams`
     `resources.addConns`, `removeConns`            ↔ `addConns`, `removeConns`
     the bodies of `ReserveForChild`, `ReleaseForChild` ↔ `reserve`, `release`

   The logging, the trace, the metrics calls and the texts of names and errors are left out. -/
namespace Dep2p.Rcmgr

open Int64

abbrev PeerID := String
abbrev ProtocolID := String

/-- `network.Direction`. -/
inductive Direction where
  | unknown
  | inbound
  | outbound
  deriving DecidableEq, Repr

/-- The name a scope is created with. -/
inductive ScopeName where
  | system
  | transient
  | allowlistedSystem
  | allowlistedTransient
  | service (svc : String)
  | protocol (proto : ProtocolID)
  | peer (p : PeerID)
  | servicePeer (svc : String) (p : PeerID)
  | protocolPeer (proto : ProtocolID) (p : PeerID)
  | conn (id : Nat)
  | stream (id : Nat)
  | span (owner : ScopeName) (id : Nat)
  deriving DecidableEq, Repr

/-- Which of the counts a limit error is about. -/
inductive Limited where
  | streamsInbound
  | streamsOutbound
  | streams
  | connsInbound
  | connsOutbound
  | conns
  | fd
  deriving DecidableEq, Repr

/-- The errors of the resource manager. `wrapped` is `resourceScope.wrapError`. -/
inductive RcErr where
  | negativeMemory (rsvp : Int64)
  | memoryLimitExceeded (current attempted limit : Int64) (priority : UInt8)
  | streamOrConnLimitExceeded (what : Limited) (current attempted limit : Int)
  | scopeClosed
  | wrapped (name : ScopeName) (err : RcErr)
  | ipLimitExceeded
  | connHasPeer
  | streamHasProtocol
  | streamHasService
  | streamHasNoProtocol
  deriving DecidableEq

/-- What the `Limit` interface answers (`BaseLimit`). -/
structure Limit where
  streams : Int
  streamsInbound : Int
  streamsOutbound : Int
  conns : Int
  connsInbound : Int
  connsOutbound : Int
  fd : Int
  memory : Int64
  deriving DecidableEq, Repr

variable (dir : Direction) (usefd : Bool)

def Limit.getStreamLimit (l : Limit) (dir : Direction) : Int :=
  if dir = .inbound then l.streamsInbound else l.streamsOutbound

def Limit.getConnLimit (l : Limit) (dir : Direction) : Int :=
  if dir = .inbound then l.connsInbound else l.connsOutbound

/-- `network.ScopeStat`. -/
structure ScopeStat where
  numStreamsInbound : Int
  numStreamsOutbound : Int
  numConnsInbound : Int
  numConnsOutbound : Int
  numFD : Int
  memory : Int64
  deriving DecidableEq, Repr

/-- The counters of a scope and the limit they are held to. -/
structure Resources where
  limit : Limit
  nconnsIn : Int := 0
  nconnsOut : Int := 0
  nstreamsIn : Int := 0
  nstreamsOut : Int := 0
  nfd : Int := 0
  memory : Int64 := 0
  deriving DecidableEq, Repr

/-- `addInt64WithOverflow`. -/
def addInt64WithOverflow (a b : Int64) : Int64 × Bool :=
  let c := a + b
  (c, decide (c > a) == decide (b > 0))

/-- `mulInt64WithOverflow`; Go's division truncates, as `Int64`'s does. -/
def mulInt64WithOverflow (a b : Int64) : Int64 × Bool :=
  let c := a * b
  if a = 0 ∨ b = 0 ∨ a = 1 ∨ b = 1 then (c, true)
  else if a = Int64.minValue ∨ b = Int64.minValue then (c, false)
  else (c, decide (c / b = a))

/-- The memory a reservation of priority `prio` may fill: `limit·(prio+1)/256`,
through `big.Int` when the product overflows. -/
def memoryThreshold (limit : Int64) (prio : UInt8) : Int64 :=
  let factor := Int64.ofNat (1 + prio.toNat)
  let (threshold, mulOk) := mulInt64WithOverflow factor limit
  if !mulOk then Int64.ofInt ((limit.toInt * (1 + (prio.toNat : Int))) >>> (8 : Nat))
  else threshold / 256

variable (rc : Resources) (st : ScopeStat)

namespace Resources

/-- `checkMemory`; `none` is Go's `nil`. -/
def checkMemory (rsvp : Int64) (prio : UInt8) : Option RcErr :=
  if rsvp < 0 then some (.negativeMemory rsvp)
  else if rc.limit.memory = Int64.maxValue then none
  else
    let (newmem, addOk) := addInt64WithOverflow rc.memory rsvp
    if !addOk || decide (newmem > memoryThreshold rc.limit.memory prio) then
      some (.memoryLimitExceeded rc.memory rsvp rc.limit.memory prio)
    else none

def reserveMemory (size : Int64) (prio : UInt8) : Except RcErr Resources :=
  match rc.checkMemory size prio with
  | some err => .error err
  | none => .ok { rc with memory := rc.memory + size }

/-- The clamp is the source's "BUG" branch. -/
def releaseMemory (size : Int64) : Resources :=
  let m := rc.memory - size
  { rc with memory := if m < 0 then 0 else m }

def addStreams (incount outcount : Int) : Except RcErr Resources :=
  if 0 < incount ∧ rc.nstreamsIn + incount > rc.limit.getStreamLimit .inbound then
    .error (.streamOrConnLimitExceeded .streamsInbound rc.nstreamsIn incount
      (rc.limit.getStreamLimit .inbound))
  else if 0 < outcount ∧ rc.nstreamsOut + outcount > rc.limit.getStreamLimit .outbound then
    .error (.streamOrConnLimitExceeded .streamsOutbound rc.nstreamsOut outcount
      (rc.limit.getStreamLimit .outbound))
  else if rc.nstreamsIn + incount + rc.nstreamsOut + outcount > rc.limit.streams then
    .error (.streamOrConnLimitExceeded .streams (rc.nstreamsIn + rc.nstreamsOut)
      (incount + outcount) rc.limit.streams)
  else
    .ok { rc with nstreamsIn := rc.nstreamsIn + incount, nstreamsOut := rc.nstreamsOut + outcount }

def addStream (dir : Direction) : Except RcErr Resources :=
  if dir = .inbound then rc.addStreams 1 0 else rc.addStreams 0 1

/-- A counter after a release, clamped at zero. -/
def clamp (n : Int) : Int := if n < 0 then 0 else n

def removeStreams (incount outcount : Int) : Resources :=
  { rc with
    nstreamsIn := clamp (rc.nstreamsIn - incount)
    nstreamsOut := clamp (rc.nstreamsOut - outcount) }

def removeStream (dir : Direction) : Resources :=
  if dir = .inbound then rc.removeStreams 1 0 else rc.removeStreams 0 1

def addConns (incount outcount fdcount : Int) : Except RcErr Resources :=
  if 0 < incount ∧ rc.nconnsIn + incount > rc.limit.getConnLimit .inbound then
    .error (.streamOrConnLimitExceeded .connsInbound rc.nconnsIn incount
      (rc.limit.getConnLimit .inbound))
  else if 0 < outcount ∧ rc.nconnsOut + outcount > rc.limit.getConnLimit .outbound then
    .error (.streamOrConnLimitExceeded .connsOutbound rc.nconnsOut outcount
      (rc.limit.getConnLimit .outbound))
  else if rc.nconnsIn + incount + rc.nconnsOut + outcount > rc.limit.conns then
    .error (.streamOrConnLimitExceeded .conns (rc.nconnsIn + rc.nconnsOut)
      (incount + outcount) rc.limit.conns)
  else if 0 < fdcount ∧ rc.nfd + fdcount > rc.limit.fd then
    .error (.streamOrConnLimitExceeded .fd rc.nfd fdcount rc.limit.fd)
  else
    .ok { rc with
      nconnsIn := rc.nconnsIn + incount
      nconnsOut := rc.nconnsOut + outcount
      nfd := rc.nfd + fdcount }

def fdCount : Int := if usefd then 1 else 0

def addConn (dir : Direction) (usefd : Bool) : Except RcErr Resources :=
  if dir = .inbound then rc.addConns 1 0 (fdCount usefd) else rc.addConns 0 1 (fdCount usefd)

def removeConns (incount outcount fdcount : Int) : Resources :=
  { rc with
    nconnsIn := clamp (rc.nconnsIn - incount)
    nconnsOut := clamp (rc.nconnsOut - outcount)
    nfd := clamp (rc.nfd - fdcount) }

def removeConn (dir : Direction) (usefd : Bool) : Resources :=
  if dir = .inbound then rc.removeConns 1 0 (fdCount usefd) else rc.removeConns 0 1 (fdCount usefd)

def stat : ScopeStat :=
  { numStreamsInbound := rc.nstreamsIn, numStreamsOutbound := rc.nstreamsOut,
    numConnsInbound := rc.nconnsIn, numConnsOutbound := rc.nconnsOut,
    numFD := rc.nfd, memory := rc.memory }

/-- The reservation of a whole stat (`ReserveForChild`): what was already taken
is given back when a later part is refused. -/
def reserve : Resources × Option RcErr :=
  match rc.reserveMemory st.memory 255 with
  | .error err => (rc, some err)
  | .ok rc₁ =>
    match rc₁.addStreams st.numStreamsInbound st.numStreamsOutbound with
    | .error err => (rc₁.releaseMemory st.memory, some err)
    | .ok rc₂ =>
      match rc₂.addConns st.numConnsInbound st.numConnsOutbound st.numFD with
      | .error err =>
        ((rc₂.releaseMemory st.memory).removeStreams st.numStreamsInbound st.numStreamsOutbound,
          some err)
      | .ok rc₃ => (rc₃, none)

/-- The release of a whole stat (`ReleaseForChild`, `ReleaseResources`). -/
def release : Resources :=
  ((rc.releaseMemory st.memory).removeStreams st.numStreamsInbound st.numStreamsOutbound).removeConns
    st.numConnsInbound st.numConnsOutbound st.numFD

/-- The counters as `doneUnlocked` leaves them. -/
def zero : Resources := { limit := rc.limit }

end Resources

/-! ## Machine arithmetic -/

theorem toInt_add_of_range {a b : Int64} (h₁ : -2 ^ 63 ≤ a.toInt + b.toInt)
    (h₂ : a.toInt + b.toInt < 2 ^ 63) : (a + b).toInt = a.toInt + b.toInt := by
  rw [toInt_add, Int.bmod_eq_of_le] <;> omega

theorem toInt_sub_of_range {a b : Int64} (h₁ : -2 ^ 63 ≤ a.toInt - b.toInt)
    (h₂ : a.toInt - b.toInt < 2 ^ 63) : (a - b).toInt = a.toInt - b.toInt := by
  rw [toInt_sub, Int.bmod_eq_of_le] <;> omega

theorem lt_zero_iff (a : Int64) : a < 0 ↔ a.toInt < 0 := by
  rw [lt_iff_toInt_lt]; rfl

/-- The overflow test of an addition of non-negative numbers is exact. -/
theorem addInt64WithOverflow_ok {a b : Int64} (ha : 0 ≤ a.toInt) (hb : 0 ≤ b.toInt) :
    (addInt64WithOverflow a b).2 = true ↔ a.toInt + b.toInt < 2 ^ 63 := by
  have hA := a.toInt_lt
  have hB := b.toInt_lt
  simp only [addInt64WithOverflow, beq_iff_eq, decide_eq_decide, lt_iff_toInt_lt,
    toInt_zero]
  constructor
  · intro h
    by_contra hover
    have hsum : (a + b).toInt = a.toInt + b.toInt - 2 ^ 64 := by
      rw [toInt_add, Int.bmod_def]
      omega
    omega
  · intro h
    rw [toInt_add_of_range (by omega) h]
    omega

/-- Dividing the wrapped product by `b` gives `a` back exactly when nothing wrapped. -/
theorem wrapped_mul_div {a b : Int} (ha : 2 ≤ a) (hb : 2 ≤ b) (hb' : b < 2 ^ 63) :
    ((a * b).bmod (2 ^ 64)).tdiv b = a ↔ a * b < 2 ^ 63 := by
  have hpos : 0 ≤ a * b := Int.mul_nonneg (by omega) (by omega)
  constructor
  · intro h
    obtain ⟨k, hk⟩ : ((2 ^ 64 : Nat) : Int) ∣ (a * b).bmod (2 ^ 64) - a * b := Int.dvd_bmod_sub_self
    generalize hc : (a * b).bmod (2 ^ 64) = c at h hk
    have hc' : c < 2 ^ 63 := by
      have := Int.bmod_lt (x := a * b) (m := 2 ^ 64) (by decide); omega
    have hc0 : 0 ≤ c := by
      by_contra hneg
      have hn := Int.tdiv_nonneg (a := -c) (b := b) (by omega) (by omega)
      rw [Int.neg_tdiv] at hn
      omega
    -- a quotient of `a` pins `c` to the block `[a·b, a·b + b)`, too short for another residue
    rw [Int.tdiv_eq_ediv_of_nonneg hc0] at h
    have hlo : a * b ≤ c := by rw [← h]; exact c.ediv_mul_le (by omega)
    omega
  · intro h
    rw [Int.bmod_eq_of_le (by omega) (by omega), Int.mul_tdiv_cancel _ (by omega)]

theorem mulInt64WithOverflow_ok {a b : Int64} (ha : 1 ≤ a.toInt) (hb : 0 ≤ b.toInt) (ha' : a.toInt ≤ 256) :
    (mulInt64WithOverflow a b).2 = true ↔ a.toInt * b.toInt < 2 ^ 63 := by
  have hB := b.toInt_lt
  unfold mulInt64WithOverflow
  split
  · rename_i h
    rcases h with h | h | h | h <;> rw [h] <;> simp <;> omega
  · rename_i h
    simp only [← toInt_inj, not_or] at h
    obtain ⟨h0, hb0, h1, hb1⟩ := h
    change ¬ b.toInt = 0 at hb0
    change ¬ a.toInt = 1 at h1
    change ¬ b.toInt = 1 at hb1
    split
    · rename_i h
      simp only [← toInt_inj, toInt_minValue] at h
      omega
    · have hne : b ≠ -1 := by
        intro h; rw [h] at hb; revert hb; decide
      rw [decide_eq_true_iff, ← toInt_inj, toInt_div_of_ne_right _ _ hne, toInt_mul]
      exact wrapped_mul_div (by omega) (by omega) hB

/-- The threshold is the exact `⌊limit·(prio+1)/256⌋`, overflow or not. -/
theorem memoryThreshold_eq {limit : Int64} (h : 0 ≤ limit.toInt) (prio : UInt8) :
    (memoryThreshold limit prio).toInt = limit.toInt * (prio.toNat + 1) / 256 := by
  have hp : prio.toNat < 256 := prio.toNat_lt
  have hl := limit.toInt_lt
  have hf : (ofNat (1 + prio.toNat)).toInt = 1 + prio.toNat := by
    rw [toInt_ofNat_of_lt] <;> omega
  have hle : limit.toInt * (prio.toNat + 1) / 256 ≤ limit.toInt := by
    apply Int.ediv_le_of_le_mul (by omega)
    exact Int.mul_le_mul_of_nonneg_left (by omega) h
  have hnn : 0 ≤ limit.toInt * (prio.toNat + 1) := Int.mul_nonneg h (by omega)
  have hok := mulInt64WithOverflow_ok (a := ofNat (1 + prio.toNat))
    (by omega) h (by omega)
  rw [hf] at hok
  have hcomm : (1 + (prio.toNat : Int)) * limit.toInt = limit.toInt * (prio.toNat + 1) := by
    rw [mul_comm, add_comm]
  have hc : (mulInt64WithOverflow (ofNat (1 + prio.toNat)) limit).1 =
      ofNat (1 + prio.toNat) * limit := by
    unfold mulInt64WithOverflow; dsimp only; split_ifs <;> rfl
  simp only [memoryThreshold]
  split
  · rw [toInt_ofInt_of_le, Int.shiftRight_eq_div_pow, Int.add_comm 1]
    · rfl
    · rw [Int.shiftRight_eq_div_pow, add_comm 1]; omega
    · rw [Int.shiftRight_eq_div_pow, add_comm 1]; omega
  · rename_i hm
    have hlt := hok.mp (by simpa using hm)
    have hne : (256 : Int64) ≠ -1 := by decide
    rw [toInt_div_of_ne_right _ _ hne, hc, toInt_mul, hf, hcomm,
      Int.bmod_eq_of_le (by omega) (by omega), Int.tdiv_eq_ediv_of_nonneg hnn]
    rfl

/-! ## Usage vectors

The six counters of a scope as one vector, so that what a scope holds can be
added up over many scopes. -/

inductive Counter where
  | memory
  | streamsIn
  | streamsOut
  | connsIn
  | connsOut
  | fd
  deriving DecidableEq, Repr

/-- What is held of each counter. -/
abbrev Usage := Counter → Int

def ScopeStat.usage : Usage
  | .memory => st.memory.toInt
  | .streamsIn => st.numStreamsInbound
  | .streamsOut => st.numStreamsOutbound
  | .connsIn => st.numConnsInbound
  | .connsOut => st.numConnsOutbound
  | .fd => st.numFD

def Resources.usage (rc : Resources) : Usage := rc.stat.usage

/-- One reservation of `size` bytes. -/
def memoryUsage (size : Int) : Usage
  | .memory => size
  | _ => 0

/-- One stream. -/
def streamUsage : Usage
  | .streamsIn => if dir = .inbound then 1 else 0
  | .streamsOut => if dir = .inbound then 0 else 1
  | _ => 0

/-- One connection. -/
def connUsage : Usage
  | .connsIn => if dir = .inbound then 1 else 0
  | .connsOut => if dir = .inbound then 0 else 1
  | .fd => Resources.fdCount usefd
  | _ => 0

theorem usage_nonneg_iff {u : Usage} : 0 ≤ u ↔ 0 ≤ u .memory ∧ 0 ≤ u .streamsIn ∧
    0 ≤ u .streamsOut ∧ 0 ≤ u .connsIn ∧ 0 ≤ u .connsOut ∧ 0 ≤ u .fd := by
  constructor
  · intro h; exact ⟨h _, h _, h _, h _, h _, h _⟩
  · rintro ⟨h₁, h₂, h₃, h₄, h₅, h₆⟩ c
    cases c <;> assumption

theorem fdCount_nonneg : 0 ≤ Resources.fdCount usefd := by
  cases usefd <;> simp [Resources.fdCount]

namespace Resources

theorem usage_zero : rc.zero.usage = 0 := by
  funext c; cases c <;> rfl

theorem clamp_of_nonneg {n : Int} (h : 0 ≤ n) : clamp n = n := by
  unfold clamp; split <;> omega

theorem clamp_nonneg (n : Int) : 0 ≤ clamp n := by
  unfold clamp; split <;> omega

/-! ### What an accepted reservation is -/

variable {rc : Resources} {size : Int64} {prio : UInt8}

theorem checkMemory_none (h : rc.checkMemory size prio = none) : 0 ≤ size.toInt := by
  unfold checkMemory at h
  split at h
  · simp at h
  · rename_i hs; rw [lt_zero_iff] at hs; omega

variable {rc' : Resources}

theorem reserveMemory_ok (h : rc.reserveMemory size prio = .ok rc') :
    rc.checkMemory size prio = none ∧ rc' = { rc with memory := rc.memory + size } := by
  unfold reserveMemory at h
  split at h
  · simp at h
  · rename_i hc; simp at h; exact ⟨hc, h.symm⟩

theorem addStreams_ok {i o : Int} (h : rc.addStreams i o = .ok rc') :
    rc' = { rc with nstreamsIn := rc.nstreamsIn + i, nstreamsOut := rc.nstreamsOut + o } ∧
    (0 < i → rc.nstreamsIn + i ≤ rc.limit.streamsInbound) ∧
    (0 < o → rc.nstreamsOut + o ≤ rc.limit.streamsOutbound) ∧
    rc.nstreamsIn + i + rc.nstreamsOut + o ≤ rc.limit.streams := by
  unfold addStreams at h
  simp only [Limit.getStreamLimit, reduceCtorEq, if_true, if_false] at h
  split_ifs at h with h₁ h₂ h₃
  simp at h
  exact ⟨h.symm, by omega, by omega, by omega⟩

theorem addConns_ok {i o f : Int} (h : rc.addConns i o f = .ok rc') :
    rc' = { rc with nconnsIn := rc.nconnsIn + i, nconnsOut := rc.nconnsOut + o, nfd := rc.nfd + f } ∧
    (0 < i → rc.nconnsIn + i ≤ rc.limit.connsInbound) ∧
    (0 < o → rc.nconnsOut + o ≤ rc.limit.connsOutbound) ∧
    rc.nconnsIn + i + rc.nconnsOut + o ≤ rc.limit.conns ∧
    (0 < f → rc.nfd + f ≤ rc.limit.fd) := by
  unfold addConns at h
  simp only [Limit.getConnLimit, reduceCtorEq, if_true, if_false] at h
  split_ifs at h with h₁ h₂ h₃ h₄
  simp at h
  exact ⟨h.symm, by omega, by omega, by omega, by omega⟩

variable {dir : Direction}

theorem addStream_ok (h : rc.addStream dir = .ok rc') :
    rc'.usage = rc.usage + streamUsage dir ∧ rc'.limit = rc.limit := by
  unfold addStream at h
  split at h <;> rename_i hd <;> obtain ⟨rfl, -⟩ := addStreams_ok h <;> refine ⟨?_, rfl⟩ <;>
    funext c <;> cases c <;> simp [usage, stat, ScopeStat.usage, streamUsage, hd]

theorem addConn_ok {usefd : Bool} (h : rc.addConn dir usefd = .ok rc') :
    rc'.usage = rc.usage + connUsage dir usefd ∧ rc'.limit = rc.limit := by
  unfold addConn at h
  split at h <;> rename_i hd <;> obtain ⟨rfl, -⟩ := addConns_ok h <;> refine ⟨?_, rfl⟩ <;>
    funext c <;> cases c <;> simp [usage, stat, ScopeStat.usage, connUsage, hd]

theorem usage_memory_set (m : Int64) :
    ({ rc with memory := m } : Resources).usage =
      rc.usage + memoryUsage (m.toInt - rc.memory.toInt) := by
  funext c; cases c <;> simp [usage, stat, ScopeStat.usage, memoryUsage]

/-! ### Undoing a reservation -/

theorem releaseMemory_undo (size : Int64) (h : 0 ≤ rc.memory.toInt) :
    ({ rc with memory := rc.memory + size } : Resources).releaseMemory size = rc := by
  have hm : ¬ rc.memory < 0 := by rw [lt_zero_iff]; omega
  simp [releaseMemory, hm]

theorem removeStreams_undo (i o : Int) (hi : 0 ≤ rc.nstreamsIn) (ho : 0 ≤ rc.nstreamsOut) :
    ({ rc with nstreamsIn := rc.nstreamsIn + i, nstreamsOut := rc.nstreamsOut + o } :
      Resources).removeStreams i o = rc := by
  simp [removeStreams, clamp_of_nonneg, hi, ho]

theorem removeConns_undo (i o f : Int) (hi : 0 ≤ rc.nconnsIn) (ho : 0 ≤ rc.nconnsOut)
    (hf : 0 ≤ rc.nfd) :
    ({ rc with nconnsIn := rc.nconnsIn + i, nconnsOut := rc.nconnsOut + o, nfd := rc.nfd + f } :
      Resources).removeConns i o f = rc := by
  simp [removeConns, clamp_of_nonneg, hi, ho, hf]

/-- No counter is negative. -/
def Nonneg : Prop := 0 ≤ rc.usage

theorem nonneg_iff : rc.Nonneg ↔ 0 ≤ rc.memory.toInt ∧ 0 ≤ rc.nstreamsIn ∧
    0 ≤ rc.nstreamsOut ∧ 0 ≤ rc.nconnsIn ∧ 0 ≤ rc.nconnsOut ∧ 0 ≤ rc.nfd := usage_nonneg_iff

variable {st : ScopeStat}

/-- A refused reservation leaves a scope with no negative counter as it was. -/
theorem reserve_err {err : RcErr} (hn : rc.Nonneg) (h : rc.reserve st = (rc', some err)) :
    rc' = rc := by
  obtain ⟨hm, hi, ho, -⟩ := nonneg_iff.mp hn
  unfold reserve at h
  split at h
  · simp at h; exact h.1.symm
  rename_i rc₁ h₁
  obtain ⟨-, rfl⟩ := reserveMemory_ok h₁
  split at h
  · simp at h
    rw [← h.1, releaseMemory_undo _ hm]
  · rename_i rc₂ h₂
    obtain ⟨rfl, -⟩ := addStreams_ok h₂
    split at h
    · simp at h
      have hmem := @releaseMemory_undo
        { rc with
          nstreamsIn := rc.nstreamsIn + st.numStreamsInbound
          nstreamsOut := rc.nstreamsOut + st.numStreamsOutbound } st.memory hm
      rw [← h.1]
      rw [hmem]
      exact removeStreams_undo _ _ hi ho
    · simp at h

/-- An accepted reservation adds the stat to every counter. -/
theorem reserve_ok (h : rc.reserve st = (rc', none)) :
    rc' = { rc with
      memory := rc.memory + st.memory
      nstreamsIn := rc.nstreamsIn + st.numStreamsInbound
      nstreamsOut := rc.nstreamsOut + st.numStreamsOutbound
      nconnsIn := rc.nconnsIn + st.numConnsInbound
      nconnsOut := rc.nconnsOut + st.numConnsOutbound
      nfd := rc.nfd + st.numFD } := by
  unfold reserve at h
  split at h
  · simp at h
  rename_i rc₁ h₁
  obtain ⟨-, rfl⟩ := reserveMemory_ok h₁
  split at h
  · simp at h
  rename_i rc₂ h₂
  obtain ⟨rfl, -⟩ := addStreams_ok h₂
  split at h
  · simp at h
  rename_i rc₃ h₃
  obtain ⟨rfl, -⟩ := addConns_ok h₃
  simp at h
  exact h.symm

theorem reserve_ok_usage (h : rc.reserve st = (rc', none))
    (hm : rc.memory.toInt + st.memory.toInt < 2 ^ 63) (h₀ : 0 ≤ rc.memory.toInt)
    (h₁ : 0 ≤ st.memory.toInt) : rc'.usage = rc.usage + st.usage := by
  rw [reserve_ok h]
  funext c
  cases c
  case memory => exact toInt_add_of_range (by omega) hm
  all_goals rfl

theorem releaseMemory_toInt (h₀ : 0 ≤ size.toInt) (h : size.toInt ≤ rc.memory.toInt) :
    (rc.releaseMemory size).memory.toInt = rc.memory.toInt - size.toInt := by
  have hr := rc.memory.toInt_lt
  have hs := toInt_sub_of_range (a := rc.memory) (b := size) (by omega) (by omega)
  have hm : ¬ rc.memory - size < 0 := by rw [lt_zero_iff]; omega
  simp [releaseMemory, hm, hs]

theorem releaseMemory_usage (hle : size.toInt ≤ rc.memory.toInt)
    (hlt : rc.memory.toInt - size.toInt < 2 ^ 63) :
    (rc.releaseMemory size).usage = rc.usage + memoryUsage (-size.toInt) := by
  have hsub := toInt_sub_of_range (by omega) hlt
  have hm : ¬ rc.memory - size < 0 := by rw [lt_zero_iff]; omega
  have hrel : rc.releaseMemory size = { rc with memory := rc.memory - size } := by
    simp [releaseMemory, hm]
  rw [hrel, usage_memory_set]
  congr 2
  omega

/-- A release of what the scope holds subtracts it from every counter. -/
theorem release_usage (h₀ : 0 ≤ st.memory.toInt) (h : st.usage ≤ rc.usage) :
    (rc.release st).usage = rc.usage - st.usage := by
  have hle : ∀ c, st.usage c ≤ rc.usage c := h
  funext c
  cases c
  case memory => exact releaseMemory_toInt h₀ (hle .memory)
  case streamsIn => exact clamp_of_nonneg (sub_nonneg_of_le (hle .streamsIn))
  case streamsOut => exact clamp_of_nonneg (sub_nonneg_of_le (hle .streamsOut))
  case connsIn => exact clamp_of_nonneg (sub_nonneg_of_le (hle .connsIn))
  case connsOut => exact clamp_of_nonneg (sub_nonneg_of_le (hle .connsOut))
  case fd => exact clamp_of_nonneg (sub_nonneg_of_le (hle .fd))

end Resources

end Dep2p.Rcmgr
