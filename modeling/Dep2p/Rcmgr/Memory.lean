import Dep2p.Rcmgr.Limits

/- The memory counter of one scope.

   A limited scope admits a reservation exactly up to the share of the limit that the
   priority opens, over the integers and not modulo `2 ^ 64`. A scope whose limit is the
   largest `int64` counts as unlimited, and `checkMemory` returns for it before it tests the
   addition for overflow, so its counter can wrap.

   What is proved:
     `reserveMemory_exact` — acceptance below the largest limit, and the counter after it.
     `memory_never_wraps_iff` — the counter of a run wraps exactly where an unlimited scope
     is asked for more than there are numbers for. -/
namespace Dep2p.Rcmgr

open Lib Resources Int64

namespace Resources

variable {rc : Resources} {size : Int64} {prio : UInt8}

/-- The check of a limited scope, in terms of the integers. -/
theorem checkMemory_none_iff
    (hl : 0 ≤ rc.limit.memory.toInt) (hlim : rc.limit.memory ≠ maxValue)
    (hm : 0 ≤ rc.memory.toInt) (hs : 0 ≤ size.toInt) :
    rc.checkMemory size prio = none ↔
      rc.memory.toInt + size.toInt ≤ rc.limit.memory.toInt * (prio.toNat + 1) / 256 := by
  have hsign : ¬ size < 0 := by
    rw [lt_zero_iff]
    omega
  have hle := memoryThreshold_le hl prio
  have hthr := memoryThreshold_eq hl prio
  have hmax := rc.limit.memory.toInt_lt
  have hadd := addInt64WithOverflow_ok hm hs
  have hnew : (addInt64WithOverflow rc.memory size).1 = rc.memory + size := rfl
  simp only [checkMemory, hsign, hlim, if_false]
  rw [← hthr]
  constructor
  · intro h
    split at h
    · cases h
    rename_i hcond
    simp only [Bool.or_eq_true, Bool.not_eq_true', decide_eq_true_eq, not_or, Bool.not_eq_false, lt_iff_toInt_lt, not_lt, hnew] at hcond
    have hrange := hadd.mp hcond.1
    rw [toInt_add_of_range (by omega) hrange] at hcond
    exact hcond.2
  · intro h
    have hrange : rc.memory.toInt + size.toInt < 2 ^ 63 := by omega
    rw [if_neg]
    simp only [Bool.or_eq_true, Bool.not_eq_true', decide_eq_true_eq, not_or, Bool.not_eq_false, lt_iff_toInt_lt, not_lt, hnew]
    refine ⟨hadd.mpr hrange, ?_⟩
    rw [toInt_add_of_range (by omega) hrange]
    exact h

theorem reserveMemory_isOk_iff :
    (∃ rc', rc.reserveMemory size prio = .ok rc') ↔ rc.checkMemory size prio = none := by
  constructor
  · rintro ⟨rc', h⟩
    exact (reserveMemory_ok h).1
  · intro h
    exact ⟨{ rc with memory := rc.memory + size }, by rw [reserveMemory, h]⟩

end Resources

/-- A limited scope admits what its share of the limit has room for, and adds exactly that. -/
theorem reserveMemory_exact (rc : Resources) (size : Int64) (prio : UInt8)
    (hl : 0 ≤ rc.limit.memory.toInt) (hlim : rc.limit.memory.toInt < Int64.maxValue.toInt)
    (hm : 0 ≤ rc.memory.toInt) (hs : 0 ≤ size.toInt) :
    ((∃ rc', rc.reserveMemory size prio = .ok rc') ↔
      rc.memory.toInt + size.toInt ≤ rc.limit.memory.toInt * (prio.toNat + 1) / 256) ∧
    ∀ rc', rc.reserveMemory size prio = .ok rc' →
      rc'.memory.toInt = rc.memory.toInt + size.toInt ∧ rc' = { rc with memory := rc'.memory } := by
  have hne : rc.limit.memory ≠ maxValue := fun h => absurd (congrArg toInt h) (by omega)
  refine ⟨?_, fun rc' h => ?_⟩
  · rw [reserveMemory_isOk_iff, checkMemory_none_iff hl hne hm hs]
  · refine ⟨(reserveMemory_le hm hl hne h).1, ?_⟩
    obtain ⟨-, rfl⟩ := reserveMemory_ok h
    rfl

/-- The largest limit but one, all but its last byte in use: the product with the priority
does not fit in 64 bits. -/
theorem reserveMemory_exact_large :
    (∃ rc', Resources.reserveMemory
        { limit := { fourLimit with memory := 9223372036854775806 }, memory := 9223372036854775805 }
        1 255 = .ok rc') ∧
    ¬ ∃ rc', reserveMemory
        { limit := { fourLimit with memory := 9223372036854775806 }, memory := 9223372036854775805 }
        1 254 = .ok rc' := by
  refine ⟨(reserveMemory_exact _ 1 255 ?_ ?_ ?_ ?_).1.mpr ?_, fun h => ?_⟩
  · decide
  · decide
  · decide
  · decide
  · decide
  · have hle := (reserveMemory_exact _ 1 254 (by decide) (by decide) (by decide)
      (by decide)).1.mp h
    exact absurd hle (by decide)

/-! ## Runs of reservations and releases -/

inductive MemoryCall where
  | reserve (size : Int64) (prio : UInt8)
  | release (size : Int64)

namespace MemoryCall

def size : MemoryCall → Int64
  | reserve size _ => size
  | release size => size

/-- A refused reservation leaves the counters alone. -/
def step (rc : Resources) : MemoryCall → Resources
  | reserve size prio =>
    match rc.reserveMemory size prio with
    | .ok rc' => rc'
    | .error _ => rc
  | release size => rc.releaseMemory size

/-- A reservation that is admitted makes the counter neither negative nor smaller. -/
def Sound (rc : Resources) : MemoryCall → Prop
  | reserve size prio => ∀ rc', rc.reserveMemory size prio = .ok rc' →
      0 ≤ rc'.memory.toInt ∧ rc.memory.toInt ≤ rc'.memory.toInt
  | release _ => True

/-- An unlimited scope is not asked for more than its counter can hold. -/
def Fits (rc : Resources) : MemoryCall → Prop
  | reserve size _ => rc.limit.memory = Int64.maxValue → rc.memory.toInt + size.toInt < 2 ^ 63
  | release _ => True

variable {rc : Resources} {call : MemoryCall}

theorem sound_iff (hm : 0 ≤ rc.memory.toInt) (hs : 0 ≤ call.size.toInt) :
    call.Sound rc ↔ call.Fits rc := by
  cases call with
  | release size => exact .rfl
  | reserve size prio =>
    change 0 ≤ size.toInt at hs
    have hsign : ¬ size < 0 := by
      rw [lt_zero_iff]
      omega
    constructor
    · -- an unlimited scope admits everything, so the sum has not wrapped
      intro hsound hlim
      have hok : rc.reserveMemory size prio = .ok { rc with memory := rc.memory + size } := by
        simp [reserveMemory, checkMemory, hsign, hlim]
      obtain ⟨hnonneg, hle⟩ := hsound _ hok
      dsimp only at hnonneg hle
      by_contra hover
      have hwrap : (rc.memory + size).toInt = rc.memory.toInt + size.toInt - 2 ^ 64 := by
        have h1 := rc.memory.toInt_lt
        have h2 := size.toInt_lt
        rw [toInt_add, Int.bmod_def]
        omega
      have := size.toInt_lt
      omega
    · intro hfits rc' hok
      obtain ⟨hcheck, rfl⟩ := reserveMemory_ok hok
      have hrange : rc.memory.toInt + size.toInt < 2 ^ 63 := by
        by_cases hlim : rc.limit.memory = maxValue
        · exact hfits hlim
        · simp only [checkMemory, hsign, hlim, if_false] at hcheck
          split at hcheck
          · cases hcheck
          · rename_i hcond
            simp only [Bool.or_eq_true, Bool.not_eq_true', not_or, Bool.not_eq_false] at hcond
            exact (addInt64WithOverflow_ok hm hs).mp hcond.1
      rw [toInt_add_of_range (by omega) hrange]
      omega

theorem step_nonneg (hm : 0 ≤ rc.memory.toInt) (hs : 0 ≤ call.size.toInt) (h : call.Sound rc) :
    0 ≤ (step rc call).memory.toInt := by
  cases call with
  | release size => exact (releaseMemory_range hm hs).1
  | reserve size prio =>
    rw [step]
    split
    · rename_i rc' hok
      exact (h rc' hok).1
    · exact hm

/-- The two conditions hold of the same runs; as long as they do, the counter is not negative. -/
theorem admits_sound_iff (hm : 0 ≤ rc.memory.toInt) {calls : List MemoryCall}
    (hs : ∀ call ∈ calls, 0 ≤ call.size.toInt) :
    Reach.Admits step (fun rc call => call.Sound rc) rc calls ↔
      Reach.Admits step (fun rc call => call.Fits rc) rc calls := by
  induction calls generalizing rc with
  | nil => exact .rfl
  | cons call calls ih =>
    have hcall := hs call List.mem_cons_self
    have hrest : ∀ call' ∈ calls, 0 ≤ call'.size.toInt :=
      fun call' hmem => hs call' (List.mem_cons_of_mem _ hmem)
    constructor
    · rintro ⟨hsound, hadmits⟩
      exact ⟨(sound_iff hm hcall).mp hsound,
        (ih (step_nonneg hm hcall hsound) hrest).mp hadmits⟩
    · rintro ⟨hfits, hadmits⟩
      have hsound := (sound_iff hm hcall).mpr hfits
      exact ⟨hsound, (ih (step_nonneg hm hcall hsound) hrest).mpr hadmits⟩

end MemoryCall

/-- In a run from an empty scope of any limit, the admitted reservations never make the
counter negative or smaller exactly if each fits where the scope is unlimited. -/
theorem memory_never_wraps_iff (limit : Limit) (calls : List MemoryCall)
    (hs : ∀ call ∈ calls, 0 ≤ call.size.toInt) :
    Reach.Admits MemoryCall.step (fun rc call => call.Sound rc) { limit } calls ↔
      Reach.Admits MemoryCall.step (fun rc call => call.Fits rc) { limit } calls :=
  have hzero : 0 ≤ ({ limit } : Resources).memory.toInt := le_refl 0
  MemoryCall.admits_sound_iff hzero hs

/-- Two reservations under a limit. -/
theorem memory_never_wraps_four :
    Reach.Admits MemoryCall.step (fun rc call => call.Sound rc) { limit := fourLimit }
      [.reserve 1000 255, .reserve 1000 255] := by
  refine (memory_never_wraps_iff fourLimit _ ?_).mpr ⟨?_, ?_, trivial⟩
  · exact List.forall_mem_cons.mpr ⟨by decide, List.forall_mem_singleton.mpr (by decide)⟩
  · exact fun h => absurd h (by decide)
  · exact fun h => absurd h (by decide)

/-- An unlimited scope that holds the largest `int64` admits one byte more, and its counter
is the smallest `int64` then. -/
theorem memory_wraps :
    ¬ MemoryCall.Sound { limit := { fourLimit with memory := maxValue },
                         memory := maxValue } (.reserve 1 255) ∧
    MemoryCall.step (MemoryCall.step { limit := { fourLimit with memory := maxValue } }
        (.reserve maxValue 255)) (.reserve 1 255) =
      { limit := { fourLimit with memory := maxValue }, memory := minValue } := by
  refine ⟨fun h => ?_, by decide⟩
  have hwrapped := (h { limit := { fourLimit with memory := maxValue },
                        memory := minValue } (by decide)).1
  exact absurd hwrapped (by decide)

end Dep2p.Rcmgr
