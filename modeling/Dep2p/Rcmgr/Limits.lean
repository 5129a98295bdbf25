import Dep2p.Rcmgr.Counters

/- Limits are never exceeded.

   `Within` says that the counters of a scope are not negative and at most its
   limit, in each direction and in total. It is a `CounterInvariant` for releases
   of non-negative sizes, so it holds of every scope after every run in which no
   negative size is released. `ReleaseMemory` does not test the sign of its
   argument, as `ReserveMemory` does, and a negative release is a reservation
   that no limit is asked about. -/
namespace Dep2p.Rcmgr

open Lib Resources

variable {rc rc' : Resources} {size : Int64} {i o : Int}

/-- No part of the limit is negative, and memory is limited. -/
structure Limit.Bounded (l : Limit) : Prop where
  streams : 0 ≤ l.streams
  streamsInbound : 0 ≤ l.streamsInbound
  streamsOutbound : 0 ≤ l.streamsOutbound
  conns : 0 ≤ l.conns
  connsInbound : 0 ≤ l.connsInbound
  connsOutbound : 0 ≤ l.connsOutbound
  fd : 0 ≤ l.fd
  memory : 0 ≤ l.memory.toInt
  limited : l.memory ≠ Int64.maxValue

namespace Resources

/-- Every counter is between zero and the limit of the scope. -/
structure Within (rc : Resources) : Prop where
  bounded : rc.limit.Bounded
  nonneg : rc.Nonneg
  memory : rc.memory.toInt ≤ rc.limit.memory.toInt
  streamsIn : rc.nstreamsIn ≤ rc.limit.streamsInbound
  streamsOut : rc.nstreamsOut ≤ rc.limit.streamsOutbound
  streams : rc.nstreamsIn + rc.nstreamsOut ≤ rc.limit.streams
  connsIn : rc.nconnsIn ≤ rc.limit.connsInbound
  connsOut : rc.nconnsOut ≤ rc.limit.connsOutbound
  conns : rc.nconnsIn + rc.nconnsOut ≤ rc.limit.conns
  fd : rc.nfd ≤ rc.limit.fd

theorem within_empty {l : Limit} (h : l.Bounded) : Within { limit := l } where
  bounded := h
  nonneg := nonneg_iff.mpr ⟨le_refl 0, le_refl 0, le_refl 0, le_refl 0, le_refl 0,
    le_refl 0⟩
  memory := h.memory
  streamsIn := h.streamsInbound
  streamsOut := h.streamsOutbound
  streams := h.streams
  connsIn := h.connsInbound
  connsOut := h.connsOutbound
  conns := h.conns
  fd := h.fd

theorem memoryThreshold_le {limit : Int64} (h : 0 ≤ limit.toInt) (prio : UInt8) :
    (memoryThreshold limit prio).toInt ≤ limit.toInt := by
  have hp : prio.toNat < 256 := prio.toNat_lt
  rw [memoryThreshold_eq h]
  apply Int.ediv_le_of_le_mul (by omega)
  exact Int.mul_le_mul_of_nonneg_left (by omega) h

variable {prio : UInt8}

theorem reserveMemory_le (h₀ : 0 ≤ rc.memory.toInt) (hl : 0 ≤ rc.limit.memory.toInt)
    (hlim : rc.limit.memory ≠ .maxValue) (h : rc.reserveMemory size prio = .ok rc') :
    rc'.memory.toInt = rc.memory.toInt + size.toInt ∧
      rc.memory.toInt + size.toInt ≤ rc.limit.memory.toInt := by
  obtain ⟨hc, rfl⟩ := reserveMemory_ok h
  have hs := checkMemory_none hc
  have hsign : ¬ size < 0 := by rw [lt_zero_iff]; omega
  simp only [checkMemory, hsign, hlim, if_false] at hc
  split at hc
  · cases hc
  rename_i hcond
  simp only [Bool.or_eq_true, Bool.not_eq_true', decide_eq_true_eq, not_or, Bool.not_eq_false, Int64.lt_iff_toInt_lt, not_lt] at hcond
  obtain ⟨hadd, hle⟩ := hcond
  have hrange := (addInt64WithOverflow_ok h₀ hs).mp hadd
  have hsum := toInt_add_of_range (by omega) hrange
  have hthr := memoryThreshold_le hl prio
  have hle' : (rc.memory + size).toInt ≤ (memoryThreshold rc.limit.memory prio).toInt := hle
  exact ⟨hsum, by omega⟩

theorem Within.reserveMemory (h : rc.Within)
    (hok : rc.reserveMemory size prio = .ok rc') : rc'.Within := by
  obtain ⟨hm, hi, ho, hci, hco, hf⟩ := nonneg_iff.mp h.nonneg
  obtain ⟨hsum, hle⟩ := reserveMemory_le hm h.bounded.memory h.bounded.limited hok
  obtain ⟨hc, rfl⟩ := reserveMemory_ok hok
  have hs := checkMemory_none hc
  have hmem : (rc.memory + size).toInt = rc.memory.toInt + size.toInt := hsum
  exact { h with
    nonneg := nonneg_iff.mpr ⟨by omega, hi, ho, hci, hco, hf⟩
    memory := by dsimp only; omega }

theorem Within.addStreams (h : rc.Within) (hi : 0 ≤ i) (ho : 0 ≤ o)
    (hok : rc.addStreams i o = .ok rc') : rc'.Within := by
  obtain ⟨hm, hsi, hso, hci, hco, hf⟩ := nonneg_iff.mp h.nonneg
  obtain ⟨rfl, hin, hout, htot⟩ := addStreams_ok hok
  have hin₀ := h.streamsIn
  have hout₀ := h.streamsOut
  refine { h with
    nonneg := nonneg_iff.mpr ⟨hm, ?_, ?_, hci, hco, hf⟩
    streamsIn := ?_, streamsOut := ?_, streams := ?_ } <;> dsimp only <;> omega

theorem Within.addConns {f : Int} (h : rc.Within) (hi : 0 ≤ i) (ho : 0 ≤ o)
    (hf : 0 ≤ f) (hok : rc.addConns i o f = .ok rc') : rc'.Within := by
  obtain ⟨hm, hsi, hso, hci, hco, hfd⟩ := nonneg_iff.mp h.nonneg
  obtain ⟨rfl, hin, hout, htot, hlim⟩ := addConns_ok hok
  have hin₀ := h.connsIn
  have hout₀ := h.connsOut
  have hfd₀ := h.fd
  refine { h with
    nonneg := nonneg_iff.mpr ⟨hm, hsi, hso, ?_, ?_, ?_⟩
    connsIn := ?_, connsOut := ?_, conns := ?_, fd := ?_ } <;> dsimp only <;> omega

/-- A release of a non-negative size leaves less memory, and not less than none. -/
theorem releaseMemory_range (hm : 0 ≤ rc.memory.toInt)
    (hs : 0 ≤ size.toInt) : 0 ≤ (rc.releaseMemory size).memory.toInt ∧
      (rc.releaseMemory size).memory.toInt ≤ rc.memory.toInt := by
  have hr := rc.memory.toInt_lt
  have hl := size.toInt_lt
  have hsub := toInt_sub_of_range (a := rc.memory) (b := size) (by omega) (by omega)
  simp only [releaseMemory, lt_zero_iff]
  split
  · exact ⟨le_refl 0, hm⟩
  · rw [hsub]; omega

theorem Within.releaseMemory (hs : 0 ≤ size.toInt) (h : rc.Within) :
    (rc.releaseMemory size).Within := by
  obtain ⟨hm, hi, ho, hci, hco, hf⟩ := nonneg_iff.mp h.nonneg
  obtain ⟨hlow, hhigh⟩ := releaseMemory_range hm hs
  exact { h with
    nonneg := nonneg_iff.mpr ⟨hlow, hi, ho, hci, hco, hf⟩
    memory := le_trans hhigh h.memory }

theorem clamp_le {n k : Int} (hn : 0 ≤ n) (hk : 0 ≤ k) : clamp (n - k) ≤ n := by
  simp only [clamp]; split <;> omega

theorem Within.removeStreams (hi : 0 ≤ i) (ho : 0 ≤ o) (h : rc.Within) :
    (rc.removeStreams i o).Within := by
  obtain ⟨hm, hsi, hso, hci, hco, hf⟩ := nonneg_iff.mp h.nonneg
  have hin := clamp_le hsi hi
  have hout := clamp_le hso ho
  have htot := h.streams
  exact { h with
    nonneg := nonneg_iff.mpr ⟨hm, clamp_nonneg _, clamp_nonneg _, hci, hco, hf⟩
    streamsIn := le_trans hin h.streamsIn
    streamsOut := le_trans hout h.streamsOut
    streams := by simp only [Resources.removeStreams]; omega }

theorem Within.removeConns {f : Int} (hi : 0 ≤ i) (ho : 0 ≤ o) (hf : 0 ≤ f)
    (h : rc.Within) : (rc.removeConns i o f).Within := by
  obtain ⟨hm, hsi, hso, hci, hco, hfd⟩ := nonneg_iff.mp h.nonneg
  have hin := clamp_le hci hi
  have hout := clamp_le hco ho
  have htot := h.conns
  exact { h with
    nonneg := nonneg_iff.mpr ⟨hm, hsi, hso, clamp_nonneg _, clamp_nonneg _, clamp_nonneg _⟩
    connsIn := le_trans hin h.connsIn
    connsOut := le_trans hout h.connsOut
    conns := by simp only [Resources.removeConns]; omega
    fd := le_trans (clamp_le hfd hf) h.fd }

variable {st : ScopeStat}

theorem Within.release (hst : 0 ≤ st.usage) (h : rc.Within) :
    (rc.release st).Within := by
  obtain ⟨hm, hsi, hso, hci, hco, hf⟩ := usage_nonneg_iff.mp hst
  exact ((h.releaseMemory hm).removeStreams hsi hso).removeConns hci hco hf

theorem Within.reserve (hst : 0 ≤ st.usage) (h : rc.Within) :
    (rc.reserve st).1.Within := by
  obtain ⟨hm, hsi, hso, hci, hco, hf⟩ := usage_nonneg_iff.mp hst
  simp only [Resources.reserve]
  split
  · exact h
  rename_i rc₁ h₁
  have hw₁ := h.reserveMemory h₁
  split
  · exact hw₁.releaseMemory hm
  rename_i rc₂ h₂
  have hw₂ := hw₁.addStreams hsi hso h₂
  split
  · exact (hw₂.releaseMemory hm).removeStreams hsi hso
  · rename_i rc₃ h₃
    exact hw₂.addConns hci hco hf h₃

variable {r : Reservation}

theorem Within.take (h : rc.Within) (hok : r.take rc = .ok rc') : rc'.Within := by
  cases r with
  | memory size prio => exact h.reserveMemory hok
  | stream dir =>
    simp only [Reservation.take, addStream] at hok
    split at hok <;> exact h.addStreams (by omega) (by omega) hok
  | conn dir usefd =>
    simp only [Reservation.take, addConn] at hok
    split at hok <;> exact h.addConns (by omega) (by omega) (fdCount_nonneg usefd) hok

theorem Within.giveBack (hr : r.Nonneg) (h : rc.Within) :
    (r.giveBack rc).Within := by
  cases r with
  | memory size prio => exact h.releaseMemory hr
  | stream dir =>
    simp only [Reservation.giveBack, removeStream]
    split <;> exact h.removeStreams (by omega) (by omega)
  | conn dir usefd =>
    simp only [Reservation.giveBack, removeConn]
    split <;> exact h.removeConns (by omega) (by omega) (fdCount_nonneg usefd)

/-- Being within the limit survives every change but a negative release. -/
theorem within_invariant : CounterInvariant Within fun size => 0 ≤ size.toInt where
  take := .take
  giveBack := .giveBack
  reserve h hchild := h.reserve hchild.nonneg
  release h hchild := h.release hchild.nonneg
  releaseMemory := .releaseMemory
  zero h := within_empty h.bounded

end Resources

/-! ## Runs -/

/-- The call does not release a negative size. -/
def ReleasesNonneg (_ : Manager) (op : Op) : Prop :=
  ∀ id size, op = .releaseMemory id size → 0 ≤ size.toInt

/-- Limits of which none is negative and that all limit memory. -/
def Limiter.Bounded (limits : Limiter) : Prop := limits.Gives fun rc => rc.limit.Bounded

theorem Limiter.Bounded.within {limits : Limiter} (h : limits.Bounded) :
    limits.Gives Resources.Within where
  system := within_empty h.system
  transient := within_empty h.transient
  allowlistedSystem := within_empty h.allowlistedSystem
  allowlistedTransient := within_empty h.allowlistedTransient
  service svc := within_empty (h.service svc)
  servicePeer svc := within_empty (h.servicePeer svc)
  protocol proto := within_empty (h.protocol proto)
  protocolPeer proto := within_empty (h.protocolPeer proto)
  peer p := within_empty (h.peer p)
  stream p := within_empty (h.stream p)
  conn := within_empty h.conn

/-- In every run that releases no negative size, every counter of every scope is
between zero and the scope's own limit. -/
theorem counters_within_limits {limits : Limiter} (hl : limits.Bounded) (cl : ConnLimiter)
    (al : Allowlist) (stickyProto : ProtocolID → Bool) (stickyPeer : PeerID → Bool) {σ : Manager}
    (h : Reach Manager.step ReleasesNonneg
      (Manager.newResourceManager limits cl al stickyProto stickyPeer) σ) (id : ScopeId) :
    (σ.scopes id).rc.Within := by
  have hall : σ.Holds Resources.Within := by
    refine Reach.invariant ?_ ?_ h
    · exact Manager.newResourceManager_holds hl.within cl al stickyProto stickyPeer
    · intro τ op _ hop hτ
      exact hτ.step within_invariant op hop
  exact hall.scopes id

theorem fourLimit_bounded : (Limiter.uniform fourLimit).Bounded := by
  have hl : fourLimit.Bounded := by constructor <;> decide
  constructor <;> intros <;> exact hl

/-- A connection that reserves ten bytes. -/
theorem counters_within_limits_conn :
    ((fourManager.run [.openConnectionNoIP .inbound true ⟨none⟩,
      .reserveMemory (.node 4) 10 255]).scopes (.node 4)).rc.Within :=
  counters_within_limits fourLimit_bounded _ _ _ _
    (.step _ (.step _ .init (by intro id size h; cases h)) (by intro id size h; cases h)) _

/-- Releasing −2000 bytes puts a connection, and the system scope, over a limit
of 1024. -/
theorem negative_release_exceeds :
    ¬ ((fourManager.run [.openConnectionNoIP .inbound true ⟨none⟩,
      .releaseMemory (.node 4) (-2000)]).scopes (.node 4)).rc.Within := by
  intro h
  have hmem := h.memory
  revert hmem
  decide

end Dep2p.Rcmgr
