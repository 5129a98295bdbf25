import Dep2p.Rcmgr.Counters
import Dep2p.Rcmgr.Tally

/- Failed migrations: what a `SetPeer`, `SetProtocol` or `SetService` that returns
   an error leaves behind.

   A migration asks one scope after the other to take the stat of the connection
   or stream, and undoes what it did when one refuses. The undo is a release, and a
   release clamps at zero, so it restores a scope exactly when its memory was not
   negative; the other counters never are. A connection that was opened on the
   allowlist and whose peer is not on it is moved to the standard scopes first, and
   that move is not undone at all.

   What is proved:
     1. `Resources.reserve_err_usage`, `Resources.release_undo_usage`: what a refusal
        and an undo do to one scope, exactly.
     2. `Trace`: what a call did to everything but the counters of the scopes it
        asked, step by step.
     3. `failed_migration_atomic_iff`: in every state any run can reach, a failing
        call changes nothing exactly when the scopes it asks recover.
     4. `setPeer_refused_transfer`: a run in which they do not. -/
namespace Dep2p.Rcmgr

open Lib List ResourceScope Manager Option Store

variable {rc rc' : Resources} {st : ScopeStat} {err : Option RcErr} {s : ResourceScope}
  {x a id : ScopeId} {limit : Limit} {name : ScopeName} {p : PeerID}

/-! ## One scope -/

namespace Resources

/-- No counter but memory is negative. -/
def CountsNonneg (rc : Resources) : Prop :=
  0 ≤ rc.nstreamsIn ∧ 0 ≤ rc.nstreamsOut ∧ 0 ≤ rc.nconnsIn ∧ 0 ≤ rc.nconnsOut ∧ 0 ≤ rc.nfd

theorem releaseMemory_counts (h : rc.CountsNonneg) (size : Int64) :
    (rc.releaseMemory size).CountsNonneg := h

variable {i o : Int}

theorem removeStreams_counts (h : rc.CountsNonneg) :
    (rc.removeStreams i o).CountsNonneg :=
  ⟨clamp_nonneg _, clamp_nonneg _, h.2.2⟩

theorem removeConns_counts (h : rc.CountsNonneg) (f : Int) :
    (rc.removeConns i o f).CountsNonneg :=
  ⟨h.1, h.2.1, clamp_nonneg _, clamp_nonneg _, clamp_nonneg _⟩

theorem addStreams_counts (hi : 0 ≤ i) (ho : 0 ≤ o)
    (h : rc.CountsNonneg) (hok : rc.addStreams i o = .ok rc') : rc'.CountsNonneg := by
  obtain ⟨rfl, -⟩ := addStreams_ok hok
  obtain ⟨h₁, h₂, h₃⟩ := h
  exact ⟨by show 0 ≤ rc.nstreamsIn + i; omega, by show 0 ≤ rc.nstreamsOut + o; omega, h₃⟩

theorem addConns_counts {f : Int} (hi : 0 ≤ i) (ho : 0 ≤ o) (hf : 0 ≤ f)
    (h : rc.CountsNonneg) (hok : rc.addConns i o f = .ok rc') : rc'.CountsNonneg := by
  obtain ⟨rfl, -⟩ := addConns_ok hok
  obtain ⟨h₁, h₂, h₃, h₄, h₅⟩ := h
  exact ⟨h₁, h₂, by show 0 ≤ rc.nconnsIn + i; omega, by show 0 ≤ rc.nconnsOut + o; omega,
    by show 0 ≤ rc.nfd + f; omega⟩

theorem reserve_counts {child : Resources} (h : rc.CountsNonneg) (hc : child.CountsNonneg) :
    (rc.reserve child.stat).1.CountsNonneg := by
  simp only [reserve]
  split
  · exact h
  rename_i rc₁ h₁
  have hm : rc₁.CountsNonneg := by obtain ⟨-, rfl⟩ := reserveMemory_ok h₁; exact h
  split
  · exact releaseMemory_counts hm _
  rename_i rc₂ h₂
  have hs := addStreams_counts hc.1 hc.2.1 hm h₂
  split
  · exact removeStreams_counts (releaseMemory_counts hs _)
  · rename_i rc₃ h₃
    exact addConns_counts hc.2.2.1 hc.2.2.2.1 hc.2.2.2.2 hs h₃

/-- Every change a scope can go through, whatever memory is released. -/
theorem counts_invariant : CounterInvariant CountsNonneg fun _ => True where
  take {r rc rc'} h hok := by
    cases r with
    | memory size prio => obtain ⟨-, rfl⟩ := reserveMemory_ok hok; exact h
    | stream dir =>
      simp only [Reservation.take, addStream] at hok
      split at hok <;> exact addStreams_counts (by omega) (by omega) h hok
    | conn dir usefd =>
      have hf := fdCount_nonneg usefd
      simp only [Reservation.take, addConn] at hok
      split at hok <;> exact addConns_counts (by omega) (by omega) hf h hok
  giveBack {r rc} _ h := by
    cases r with
    | memory size prio => exact releaseMemory_counts h size
    | stream dir =>
      simp only [Reservation.giveBack, removeStream]
      split <;> exact removeStreams_counts h
    | conn dir usefd =>
      simp only [Reservation.giveBack, removeConn]
      split <;> exact removeConns_counts h _
  reserve h hc := reserve_counts h hc
  release h _ := removeConns_counts (removeStreams_counts (releaseMemory_counts h _)) _
  releaseMemory _ h := releaseMemory_counts h _
  zero _ := ⟨le_refl _, le_refl _, le_refl _, le_refl _, le_refl _⟩

theorem clamp_undo {n : Int} (d : Int) (h : 0 ≤ n) : clamp (n + d - d) = n := by
  rw [Int.add_sub_cancel, clamp_of_nonneg h]

/-- A release gives the memory of before back, unless that was negative. -/
theorem releaseMemory_undo_memory (rc : Resources) (size : Int64) :
    (({ rc with memory := rc.memory + size } : Resources).releaseMemory size).memory =
      if rc.memory < 0 then 0 else rc.memory := by
  simp [releaseMemory]

theorem memory_restored_iff (m : Int64) :
    (if m < 0 then 0 else m).toInt = m.toInt ↔ 0 ≤ m.toInt := by
  split
  · rename_i hneg
    rw [lt_zero_iff] at hneg
    constructor
    · intro h
      have h0 : (0 : Int64).toInt = 0 := rfl
      omega
    · intro h; omega
  · rename_i hnn
    rw [lt_zero_iff] at hnn
    exact ⟨fun _ => by omega, fun _ => rfl⟩

/-- What a refused stat does to the counters, exactly. Memory is asked first, so
a refusal there has nothing to undo. -/
theorem reserve_err_usage {err : RcErr}
    (hn : rc.CountsNonneg) (h : rc.reserve st = (rc', some err)) :
    rc'.usage = rc.usage ↔ rc.checkMemory st.memory 255 ≠ none ∨ 0 ≤ rc.memory.toInt := by
  unfold reserve at h
  split at h
  · rename_i e hmem
    obtain ⟨rfl, -⟩ := Prod.mk.inj h
    refine iff_of_true rfl (.inl fun hnone => ?_)
    simp [reserveMemory, hnone] at hmem
  · rename_i rc₁ h₁
    obtain ⟨hnone, rfl⟩ := reserveMemory_ok h₁
    have hiff : ∀ {u : Usage}, u .memory = (if rc.memory < 0 then 0 else rc.memory).toInt →
        (∀ c, c ≠ .memory → u c = rc.usage c) →
        (u = rc.usage ↔ rc.checkMemory st.memory 255 ≠ none ∨ 0 ≤ rc.memory.toInt) := by
      intro u hm hrest
      have hmem : u .memory = rc.usage .memory ↔ 0 ≤ rc.memory.toInt := by
        rw [hm]; exact memory_restored_iff rc.memory
      refine ⟨fun heq => .inr (hmem.mp (congrFun heq _)), fun hc => ?_⟩
      have hpos := hmem.mpr (hc.resolve_left (not_not.mpr hnone))
      funext c
      by_cases hcm : c = .memory
      · rw [hcm, hpos]
      · exact hrest c hcm
    split at h
    · obtain ⟨rfl, -⟩ := Prod.mk.inj h
      refine hiff (congrArg Int64.toInt (releaseMemory_undo_memory rc st.memory)) fun c hc => ?_
      cases c <;> first | exact absurd rfl hc | rfl
    · rename_i rc₂ h₂
      obtain ⟨rfl, -⟩ := addStreams_ok h₂
      split at h
      · obtain ⟨rfl, -⟩ := Prod.mk.inj h
        refine hiff (congrArg Int64.toInt (releaseMemory_undo_memory rc st.memory)) fun c hc => ?_
        cases c
        case memory => exact absurd rfl hc
        case streamsIn => exact clamp_undo _ hn.1
        case streamsOut => exact clamp_undo _ hn.2.1
        all_goals rfl
      · cases h

/-- What the undo of an accepted stat does to the counters, exactly. -/
theorem release_undo_usage (hn : rc.CountsNonneg) (h : rc.reserve st = (rc', none)) :
    (rc'.release st).usage = rc.usage ↔ 0 ≤ rc.memory.toInt := by
  rw [reserve_ok h]
  have hmem := congrArg Int64.toInt (releaseMemory_undo_memory rc st.memory)
  refine ⟨fun heq => ?_, fun hpos => ?_⟩
  · exact (memory_restored_iff rc.memory).mp (hmem.symm.trans (congrFun heq .memory))
  · obtain ⟨h₁, h₂, h₃, h₄, h₅⟩ := hn
    funext c
    cases c
    case memory => exact hmem.trans ((memory_restored_iff rc.memory).mpr hpos)
    case streamsIn => exact clamp_undo _ h₁
    case streamsOut => exact clamp_undo _ h₂
    case connsIn => exact clamp_undo _ h₃
    case connsOut => exact clamp_undo _ h₄
    case fd => exact clamp_undo _ h₅

end Resources

namespace ResourceScope

/-- The scope is open and its counters take the stat. -/
def Takes (st : ScopeStat) (s : ResourceScope) : Prop :=
  s.done = false ∧ (s.rc.reserve st).2 = none

instance (st : ScopeStat) (s : ResourceScope) : Decidable (s.Takes st) :=
  inferInstanceAs (Decidable (_ ∧ _))

/-- A refusal of the stat leaves the counters as they were: the scope is closed,
or memory, which is asked first, is refused, or memory is not negative. -/
def RefusesCleanly (st : ScopeStat) (s : ResourceScope) : Prop :=
  s.done = true ∨ s.rc.checkMemory st.memory 255 ≠ none ∨ 0 ≤ s.rc.memory.toInt

instance (st : ScopeStat) (s : ResourceScope) : Decidable (s.RefusesCleanly st) :=
  inferInstanceAs (Decidable (_ ∨ _ ∨ _))

theorem reserveForChild_none :
    (s.reserveForChild st).2 = none ↔ s.Takes st := by
  simp only [reserveForChild, Takes]
  cases s.done with
  | true => simp
  | false =>
    rcases s.rc.reserve st with ⟨rc, _ | err⟩ <;> simp

/-- The counters after the stat was refused. -/
theorem refused_usage (hn : s.rc.CountsNonneg)
    (h : ¬ s.Takes st) : (s.reserveForChild st).1.rc.usage = s.rc.usage ↔ s.RefusesCleanly st := by
  simp only [Takes, not_and] at h
  simp only [reserveForChild, RefusesCleanly]
  cases hd : s.done with
  | true => simp
  | false =>
    have hr := h hd
    rcases hres : s.rc.reserve st with ⟨rc, _ | err⟩
    · rw [hres] at hr; exact absurd rfl hr
    · simpa using Resources.reserve_err_usage hn hres

/-- The counters after the stat was taken and given back. -/
theorem undone_stat_usage (hn : s.rc.CountsNonneg) (h : s.Takes st) :
    ((s.reserveForChild st).1.releaseForChild st).rc.usage = s.rc.usage ↔ 0 ≤ s.rc.memory.toInt := by
  obtain ⟨hd, hres⟩ := h
  rcases hrc : s.rc.reserve st with ⟨rc, _ | err⟩
  · simp only [reserveForChild, hd, hrc]
    exact Resources.release_undo_usage hn hrc
  · rw [hrc] at hres; cases hres

end ResourceScope

namespace Manager

/-! ## What a failed call may leave behind -/

/-- `x` was created between `σ` and `τ`. -/
def New (σ τ : Manager) (x : ScopeId) : Prop := ∃ n, x = .node n ∧ σ.next ≤ n ∧ n < τ.next

/-- The references that scopes created between `σ` and `τ` hold on `x`. -/
def entryRefs (σ τ : Manager) (x : ScopeId) : Nat :=
  ((Finset.range τ.next).filter fun n => σ.next ≤ n ∧ x ∈ (τ.scopes (.node n)).edges).card

/-- Nothing changed but that scopes were created: those are empty and nothing
refers to them. -/
structure Atomic (σ τ : Manager) : Prop where
  conns : τ.conns = σ.conns
  streams : τ.streams = σ.streams
  edges : ∀ x, ¬ New σ τ x → (τ.scopes x).edges = (σ.scopes x).edges
  counters : ∀ x, ¬ New σ τ x → τ.use x = σ.use x
  refCnt : ∀ x, ¬ New σ τ x → (τ.scopes x).refCnt = (σ.scopes x).refCnt + entryRefs σ τ x
  entries : ∀ x, New σ τ x → τ.use x = 0 ∧ (τ.scopes x).refCnt = 0

/-- A point inside a call that started in `σ` and has created scopes, taken the
references `r`, and touched no counters but those of the scopes in `E`. -/
structure Trace (σ τ : Manager) (r : ScopeId → Int) (E : ScopeId → Prop) : Prop where
  next : σ.next ≤ τ.next
  conns : τ.conns = σ.conns
  streams : τ.streams = σ.streams
  edges : ∀ x, ¬ New σ τ x → (τ.scopes x).edges = (σ.scopes x).edges
  refCnt : ∀ x, ¬ New σ τ x →
    (τ.scopes x).refCnt = (σ.scopes x).refCnt + entryRefs σ τ x + r x
  newRef : ∀ x, New σ τ x → (τ.scopes x).refCnt = r x
  use : ∀ x, ¬ New σ τ x → ¬ E x → τ.use x = σ.use x
  newUse : ∀ x, New σ τ x → ¬ E x → τ.use x = 0

variable {y : ScopeId} {σ₀ σ₁ : Manager}

section trace

variable {σ τ ρ : Manager} {r : ScopeId → Int} {E E' : ScopeId → Prop} {u : Usage}

theorem not_new_self : ¬ New σ σ x := by
  rintro ⟨n, -, hge, hlt⟩
  omega

theorem Trace.refl (σ : Manager) : Trace σ σ (fun _ => 0) fun _ => False where
  next := le_refl _
  conns := rfl
  streams := rfl
  edges _ _ := rfl
  refCnt x _ := by
    have hnone : entryRefs σ σ x = 0 := by
      rw [entryRefs, Finset.card_eq_zero, Finset.filter_eq_empty_iff]
      rintro n hn ⟨hge, -⟩
      exact absurd (mem_range.mp hn) (by omega)
    omega
  newRef x hx := absurd hx not_new_self
  use _ _ _ := rfl
  newUse x hx := absurd hx not_new_self

/-- `u` is what the counters of `x` should be. -/
def Stands (σ τ : Manager) (x : ScopeId) (u : Usage) : Prop :=
  (¬ New σ τ x → u = σ.use x) ∧ (New σ τ x → u = 0)

theorem Stands.iff {v : Usage} (h : Stands σ τ x u) : Stands σ τ x v ↔ v = u := by
  constructor
  · intro hv
    by_cases hx : New σ τ x
    · exact (hv.2 hx).trans (h.2 hx).symm
    · exact (hv.1 hx).trans (h.1 hx).symm
  · rintro rfl; exact h

theorem Stands.mono (h : Stands σ τ x u)
    (hnew : New σ ρ x ↔ New σ τ x) : Stands σ ρ x u := by
  simp only [Stands, hnew]; exact h

theorem Trace.stands (h : Trace σ τ r E) (hx : ¬ E x) : Stands σ τ x (τ.use x) :=
  ⟨fun hn => h.use x hn hx, fun hn => h.newUse x hn hx⟩

/-- The call may end here when the counters it touched are what they should be. -/
theorem Trace.atomic_iff (h : Trace σ τ (fun _ => 0) E) :
    Atomic σ τ ↔ ∀ x, E x → Stands σ τ x (τ.use x) := by
  constructor
  · intro ha x _
    exact ⟨ha.counters x, fun hnew => (ha.entries x hnew).1⟩
  · intro hE
    refine ⟨h.conns, h.streams, h.edges, fun x hx => ?_, fun x hx => ?_, fun x hx => ⟨?_, ?_⟩⟩
    · by_cases hEx : E x
      · exact (hE x hEx).1 hx
      · exact h.use x hx hEx
    · rw [h.refCnt x hx, add_zero]
    · by_cases hEx : E x
      · exact (hE x hEx).2 hx
      · exact h.newUse x hx hEx
    · exact h.newRef x hx

section

variable (h : Trace σ τ r E)
include h

variable {r' : ScopeId → Int}

/-- A step that changes references and the counters of some scopes. -/
theorem Trace.touch (hnext : ρ.next = τ.next) (hconns : ρ.conns = τ.conns)
    (hstreams : ρ.streams = τ.streams) (hedges : ∀ x, (ρ.scopes x).edges = (τ.scopes x).edges)
    (href : ∀ x, (ρ.scopes x).refCnt - r' x = (τ.scopes x).refCnt - r x)
    (hE : ∀ x, ¬ E' x → ¬ E x ∧ ρ.use x = τ.use x) : Trace σ ρ r' E' := by
  have hnew : ∀ x, New σ ρ x ↔ New σ τ x := fun x => by simp [New, hnext]
  have hrefs : ∀ x, entryRefs σ ρ x = entryRefs σ τ x := fun x => by
    simp [entryRefs, hnext, hedges]
  refine ⟨hnext ▸ h.next, hconns.trans h.conns, hstreams.trans h.streams, fun x hx => ?_,
    fun x hx => ?_, fun x hx => ?_, fun x hx hEx => ?_, fun x hx hEx => ?_⟩
  · rw [hedges]; exact h.edges x fun hn => hx ((hnew x).mpr hn)
  · have hold := h.refCnt x fun hn => hx ((hnew x).mpr hn)
    have hx' := href x
    rw [hrefs]
    omega
  · have hold := h.newRef x ((hnew x).mp hx)
    have hx' := href x
    omega
  · rw [(hE x hEx).2]; exact h.use x (fun hn => hx ((hnew x).mpr hn)) (hE x hEx).1
  · rw [(hE x hEx).2]; exact h.newUse x ((hnew x).mp hx) (hE x hEx).1

theorem Trace.incRef (x : ScopeId) : Trace σ (τ.incRef x) (fun S => r S + one x S) E := by
  refine h.touch rfl rfl rfl (fun y => ?_) (fun y => ?_) fun y hy => ⟨hy, use_incRef x y⟩
  · exact Graph.modify_keep (f := .incRef) (fun _ => rfl) _ _
  · simp only [Manager.incRef, modify, modify_apply, one]
    split
    · rename_i heq; subst heq; simp only [ResourceScope.incRef]; omega
    · omega

theorem Trace.decRef : Trace σ (τ.decRef x) (fun S => r S - one x S) E := by
  refine h.touch rfl rfl rfl (fun y => ?_) (fun y => ?_) fun y hy => ⟨hy, use_decRef x y⟩
  · exact Graph.modify_keep (f := .decRef) (fun _ => rfl) _ _
  · simp only [Manager.decRef, modify, modify_apply, one]
    split
    · rename_i heq; subst heq; simp only [ResourceScope.decRef]; omega
    · omega

theorem Trace.congr (hr : ∀ S, r' S = r S) (hE : ∀ S, E S → E' S) :
    Trace σ τ r' E' :=
  h.touch rfl rfl rfl (fun _ => rfl) (fun x => by rw [hr]) fun x hx => ⟨fun he => hx (hE x he), rfl⟩

/-- A step that changes the counters of `x` only. -/
theorem Trace.modify {f : ResourceScope → ResourceScope}
    (hedges : ∀ s, (f s).edges = s.edges) (href : ∀ s, (f s).refCnt = s.refCnt) :
    Trace σ (τ.modify x f) r fun S => S = x ∨ E S := by
  refine h.touch rfl rfl rfl (fun y => ?_) (fun y => ?_) fun y hy => ?_
  · exact Graph.modify_keep hedges _ _
  · rw [show ((τ.modify x f).scopes y).refCnt = (τ.scopes y).refCnt from
      Graph.modify_keep href _ _]
  · obtain ⟨hne, hE⟩ := not_or.mp hy
    exact ⟨hE, by rw [use_modify, if_neg hne]⟩

end

theorem ne_fresh_of_new (h : New σ τ x) : x ≠ τ.fresh := by
  rintro rfl
  obtain ⟨n, hn, -, hlt⟩ := h
  injection hn with hn
  omega

theorem new_succ (hnext : ρ.next = τ.next + 1) (hle : σ.next ≤ τ.next) (x : ScopeId) :
    New σ ρ x ↔ New σ τ x ∨ x = τ.fresh := by
  constructor
  · rintro ⟨n, rfl, hge, hlt⟩
    by_cases hn : n < τ.next
    · exact .inl ⟨n, rfl, hge, hn⟩
    · refine .inr ?_
      rw [show n = τ.next by omega]
      rfl
  · rintro (⟨n, rfl, hge, hlt⟩ | rfl)
    · exact ⟨n, rfl, hge, by omega⟩
    · exact ⟨τ.next, rfl, hle, by omega⟩

/-- A scope is created with edges that were there before the call. -/
theorem Trace.create (h : Trace σ τ r E) (edges : List ScopeId)
    (hold : ∀ e ∈ edges, e ≠ τ.fresh ∧ ¬ New σ τ e) (hnodup : edges.Nodup)
    (hscopes : ρ.scopes = (τ.newResourceScope limit edges name).scopes)
    (hnext : ρ.next = τ.next + 1) (hconns : ρ.conns = τ.conns) (hstreams : ρ.streams = τ.streams)
    (hr : r τ.fresh = 0) : Trace σ ρ r E := by
  have hnew := fun x => new_succ hnext h.next x
  have hself : ρ.scopes τ.fresh = { rc := { limit }, edges, name } := by
    rw [hscopes, newResourceScope_scopes, if_pos rfl]
  have hother : ∀ x, x ≠ τ.fresh → ρ.scopes x = modifyEach (·.incRef) edges τ.scopes x := by
    intro x hx
    rw [hscopes, newResourceScope_scopes, if_neg hx]
  have hedges : ∀ x, x ≠ τ.fresh → (ρ.scopes x).edges = (τ.scopes x).edges := fun x hx => by
    rw [hscopes]
    exact newResourceScope_keep τ (fun _ => rfl) _ _ hx
  have huse : ∀ x, x ≠ τ.fresh → ρ.use x = τ.use x := fun x hx => by
    rw [Manager.use, hscopes]
    exact newResourceScope_keep τ (π := fun s => s.rc.usage) (fun _ => rfl) _ _ hx
  have href : ∀ x, x ≠ τ.fresh →
      (ρ.scopes x).refCnt = (τ.scopes x).refCnt + if x ∈ edges then 1 else 0 := by
    intro x hx
    rw [hother x hx, modifyEach_of_nodup hnodup]
    split
    · rfl
    · omega
  -- the new scope refers to its edges
  have hrefs : ∀ x, entryRefs σ ρ x = entryRefs σ τ x + if x ∈ edges then 1 else 0 := by
    intro x
    have hsame : (Finset.range τ.next).filter
          (fun n => σ.next ≤ n ∧ x ∈ (ρ.scopes (.node n)).edges) =
        (Finset.range τ.next).filter (fun n => σ.next ≤ n ∧ x ∈ (τ.scopes (.node n)).edges) := by
      refine Finset.filter_congr fun n hn => ?_
      rw [hedges (.node n) fun heq => ?_]
      injection heq with heq
      exact absurd (mem_range.mp hn) (by omega)
    have hlast : x ∈ (ρ.scopes (.node τ.next)).edges ↔ x ∈ edges := by
      rw [show ρ.scopes (.node τ.next) = _ from hself]
    simp only [entryRefs]
    rw [hnext, Finset.range_add_one, Finset.filter_insert, hsame]
    by_cases hx : x ∈ edges
    · rw [if_pos ⟨h.next, hlast.mpr hx⟩, if_pos hx, Finset.card_insert_of_notMem (by simp)]
    · rw [if_neg fun hc => hx (hlast.mp hc.2), if_neg hx, add_zero]
  refine ⟨h.next.trans (by omega), hconns.trans h.conns, hstreams.trans h.streams, fun x hx => ?_,
    fun x hx => ?_, fun x hx => ?_, fun x hx hEx => ?_, fun x hx hEx => ?_⟩
  · obtain ⟨hx, hf⟩ := not_or.mp (mt (hnew x).mpr hx)
    rw [hedges x hf]; exact h.edges x hx
  · obtain ⟨hx, hf⟩ := not_or.mp (mt (hnew x).mpr hx)
    rw [href x hf, h.refCnt x hx, hrefs]
    split <;> push_cast <;> omega
  · rcases (hnew x).mp hx with hx | rfl
    · have hne : x ∉ edges := fun hmem => (hold x hmem).2 hx
      rw [href x (ne_fresh_of_new hx), h.newRef x hx, if_neg hne, add_zero]
    · rw [hself, hr]
  · obtain ⟨hx, hf⟩ := not_or.mp (mt (hnew x).mpr hx)
    rw [huse x hf]; exact h.use x hx hEx
  · rcases (hnew x).mp hx with hx | rfl
    · rw [huse x (ne_fresh_of_new hx)]; exact h.newUse x hx hEx
    · rw [Manager.use, hself]; exact Resources.usage_zero { limit }

theorem Trace.reserve (h : Trace σ τ r E)
    (heq : τ.reserveForChild x st = (ρ, err)) : Trace σ ρ r fun S => S = x ∨ E S := by
  obtain rfl : (τ.reserveForChild x st).1 = ρ := congrArg Prod.fst heq
  exact h.modify (Graph.reserveForChild_keep uncounted_edges)
    (Graph.reserveForChild_keep uncounted_refCnt)

theorem Trace.release (h : Trace σ τ r E) (x : ScopeId) (st : ScopeStat) :
    Trace σ (τ.releaseForChild x st) r fun S => S = x ∨ E S :=
  h.modify (Graph.forChild_keep uncounted_edges _) (Graph.forChild_keep uncounted_refCnt _)

theorem reserveForChild_scopes (heq : τ.reserveForChild x st = (ρ, err)) :
    ρ.scopes y = if y = x then ((τ.scopes x).reserveForChild st).1 else τ.scopes y := by
  obtain rfl : (τ.reserveForChild x st).1 = ρ := congrArg Prod.fst heq
  exact modify_apply τ.scopes x y fun s => (s.reserveForChild st).1

theorem incRef_scopes :
    (τ.incRef x).scopes y = if y = x then (τ.scopes x).incRef else τ.scopes y :=
  modify_apply τ.scopes x y _

theorem releaseForChild_scopes :
    (τ.releaseForChild x st).scopes y =
      if y = x then (τ.scopes x).releaseForChild st else τ.scopes y :=
  modify_apply τ.scopes x y _

/-- A scope takes the stat or refuses it. -/
theorem takes_reserve (heq : τ.reserveForChild x st = (ρ, err)) :
    (τ.scopes x).Takes st ↔ err = none := by
  rw [← reserveForChild_none]
  exact (congrArg Prod.snd heq) ▸ .rfl

theorem takes_iff (hdone : (τ.scopes a).done = s.done) (hrc : (τ.scopes a).rc = s.rc)
    (heq : (τ.incRef a).reserveForChild a st = (ρ, err)) : s.Takes st ↔ err = none := by
  rw [← takes_reserve heq, incRef_scopes, if_pos rfl]
  simp [ResourceScope.Takes, ResourceScope.incRef, hdone, hrc]

/-! ### A call that fails -/

/-- The scope `a` was found or created, and refuses. -/
theorem Trace.refused (h : Trace σ τ (fun _ => 0) fun _ => False)
    (hs : τ.scopes a = s) (hn : s.rc.CountsNonneg) {err : RcErr}
    (heq : (τ.incRef a).reserveForChild a st = (ρ, some err)) :
    Atomic σ (ρ.decRef a) ↔ s.RefusesCleanly st := by
  have hscope : (τ.incRef a).scopes a = s.incRef := by rw [incRef_scopes, if_pos rfl, hs]
  have hrefuses : ¬ s.incRef.Takes st := by
    rw [← hscope, takes_reserve heq]
    exact some_ne_none err
  have htrace : Trace σ (ρ.decRef a) (fun _ => 0) fun S => S = a :=
    (((h.incRef a).reserve heq).decRef).congr (fun S => by omega) fun S hS => hS.resolve_right id
  have huse : (ρ.decRef a).use a = (s.incRef.reserveForChild st).1.rc.usage := by
    rw [use_decRef, Manager.use, reserveForChild_scopes heq, if_pos rfl, hscope]
  have hstands : Stands σ (ρ.decRef a) a s.rc.usage := by
    rw [← hs]
    refine (h.stands id).mono ?_
    have hnext : (ρ.decRef a).next = τ.next := (quiet_reserveForChild heq).next
    simp [New, hnext]
  have hclean := refused_usage (s := s.incRef) hn hrefuses
  rw [htrace.atomic_iff]
  refine trans ?_ hclean
  simp only [forall_eq, hstands.iff, huse]
  rfl

/-- The scope `a` takes the stat, `b` is found or created, and refuses: what `a`
took is given back. -/
theorem Trace.refused_second {σ₂ : Manager} (h : Trace σ σ₀ (fun _ => 0) fun _ => False)
    {b : ScopeId} {t : ResourceScope} (hs : σ₀.scopes a = s) (hsn : s.rc.CountsNonneg)
    (ha : σ₀.skel.Created a) (heq : (σ₀.incRef a).reserveForChild a st = (σ₁, none))
    (h₂ : Trace σ σ₂ (one a) fun S => S = a) (hkeep : σ₂.scopes a = σ₁.scopes a)
    (hnext : σ₀.next ≤ σ₂.next) (hba : b ≠ a) (ht : (σ₂.scopes b).done = t.done)
    (htrc : (σ₂.scopes b).rc = t.rc) (htn : t.rc.CountsNonneg) {err : RcErr}
    (heq' : (σ₂.incRef b).reserveForChild b st = (ρ, some err)) :
    Atomic σ (((ρ.releaseForChild a st).decRef a).decRef b) ↔
      0 ≤ s.rc.memory.toInt ∧ t.RefusesCleanly st := by
  set τ := ((ρ.releaseForChild a st).decRef a).decRef b with hτ
  have hnextτ : τ.next = σ₂.next := (quiet_reserveForChild heq').next
  have htrace : Trace σ τ (fun _ => 0) fun S => S = a ∨ S = b := by
    refine (((((h₂.incRef b).reserve heq').release a st).decRef).decRef).congr
      (fun S => by omega) fun S hS => ?_
    rcases hS with hS | hS | hS
    · exact .inl hS
    · exact .inr hS
    · exact .inl hS
  -- the scope asked first
  have hsa : (σ₀.incRef a).scopes a = s.incRef := by rw [incRef_scopes, if_pos rfl, hs]
  have htakes : s.incRef.Takes st := by rw [← hsa, takes_reserve heq]
  have husea : τ.use a = ((s.incRef.reserveForChild st).1.releaseForChild st).rc.usage := by
    rw [use_decRef, use_decRef, Manager.use, releaseForChild_scopes, if_pos rfl,
      reserveForChild_scopes heq', if_neg hba.symm, incRef_scopes, if_neg hba.symm, hkeep,
      reserveForChild_scopes heq, if_pos rfl, hsa]
  have hstandsa : Stands σ τ a s.rc.usage := by
    rw [← hs]
    refine (h.stands id).mono ?_
    obtain ⟨n, rfl, hlt⟩ := ha
    have hlt : n < σ₀.next := hlt
    constructor
    · rintro ⟨m, hm, hge, -⟩
      cases hm
      exact ⟨n, rfl, hge, hlt⟩
    · rintro ⟨m, hm, hge, -⟩
      cases hm
      exact ⟨n, rfl, hge, by omega⟩
  -- the scope that refuses
  have htb : (σ₂.incRef b).scopes b = (σ₂.scopes b).incRef := by rw [incRef_scopes, if_pos rfl]
  have hrefuses : ¬ (σ₂.scopes b).incRef.Takes st := by
    rw [← htb, takes_reserve heq']
    exact some_ne_none err
  have huseb : τ.use b = ((σ₂.scopes b).incRef.reserveForChild st).1.rc.usage := by
    rw [use_decRef, use_decRef, Manager.use, releaseForChild_scopes, if_neg hba,
      reserveForChild_scopes heq', if_pos rfl, htb]
  have hstandsb : Stands σ τ b (σ₂.scopes b).rc.usage := by
    refine (h₂.stands hba).mono ?_
    simp [New, hnextτ]
  have hclean : (σ₂.scopes b).incRef.RefusesCleanly st ↔ t.RefusesCleanly st := by
    simp [ResourceScope.RefusesCleanly, ResourceScope.incRef, ht, htrc]
  rw [htrace.atomic_iff]
  refine trans ?_ (and_congr (undone_stat_usage (s := s.incRef) hsn htakes)
    ((refused_usage (htrc ▸ htn) hrefuses).trans hclean))
  simp only [forall_eq_or_imp, forall_eq, hstandsa.iff, hstandsb.iff, husea, huseb]
  rfl

end trace

/-! ## The scopes a call asks -/

/-- The scope of a service: the entry of the table, or the one that is created. -/
def serviceScopeOf (σ : Manager) (svc : String) : ResourceScope :=
  match σ.svc svc with
  | some s => σ.scopes s.scope
  | none => { rc := { limit := σ.limits.getServiceLimits svc }, edges := [system], name := .service svc }

@[inherit_doc serviceScopeOf]
def protocolScopeOf (σ : Manager) (proto : ProtocolID) : ResourceScope :=
  match σ.proto proto with
  | some s => σ.scopes s.scope
  | none =>
    { rc := { limit := σ.limits.getProtocolLimits proto }, edges := [system], name := .protocol proto }

@[inherit_doc serviceScopeOf]
def peerScopeOf (σ : Manager) (p : PeerID) : ResourceScope :=
  match σ.peer p with
  | some s => σ.scopes s.scope
  | none => { rc := { limit := σ.limits.getPeerLimits p }, edges := [system], name := .peer p }

/-- The scope of a peer inside a service or protocol, which may not exist itself. -/
def subPeerScopeOf (σ : Manager) (owner : Option ScopeId) (limit : Limit) (name : ScopeName)
    (p : PeerID) : ResourceScope :=
  match owner.bind fun o => σ.peers o p with
  | some ps => σ.scopes ps
  | none => { rc := { limit }, name }

def protocolPeerScopeOf (σ : Manager) (proto : ProtocolID) (p : PeerID) : ResourceScope :=
  σ.subPeerScopeOf ((σ.proto proto).map (·.scope)) (σ.limits.getProtocolPeerLimits proto)
    (.protocolPeer proto p) p

def servicePeerScopeOf (σ : Manager) (svc : String) (p : PeerID) : ResourceScope :=
  σ.subPeerScopeOf ((σ.svc svc).map (·.scope)) (σ.limits.getServicePeerLimits svc)
    (.servicePeer svc p) p

/-- The scope of a protocol or service that is there. -/
def sectorOwner (σ : Manager) : Sector → Option ScopeId
  | .protocol proto => (σ.proto proto).map (·.scope)
  | .service svc => (σ.svc svc).map (·.scope)

def sectorScopeOf (σ : Manager) : Sector → ResourceScope
  | .protocol proto => σ.protocolScopeOf proto
  | .service svc => σ.serviceScopeOf svc

def sectorPeerScopeOf (σ : Manager) (t : Sector) (p : PeerID) : ResourceScope :=
  σ.subPeerScopeOf (σ.sectorOwner t) (t.peerLimits σ.limits) (t.peerName p) p

variable {t : Sector}

section asked

variable {σ τ : Manager} {r : ScopeId → Int} {E : ScopeId → Prop}

/-- The scope of a protocol or service: the entry of the table, or a new scope that refers
to the system scope. -/
theorem lookupSector_cases :
    (∃ a, σ.sectorOwner t = some a ∧ σ.lookupSector t = (σ, a) ∧ σ.sectorScopeOf t = σ.scopes a) ∨
    ∃ τ limit, σ.sectorOwner t = none ∧ σ.lookupSector t = (τ, σ.fresh) ∧
      σ.sectorScopeOf t = { rc := { limit }, edges := [system], name := t.name } ∧
      τ.scopes = (σ.newResourceScope limit [system] t.name).scopes ∧ τ.next = σ.next + 1 ∧
      τ.conns = σ.conns ∧ τ.streams = σ.streams ∧ τ.peers = σ.peers ∧ τ.limits = σ.limits := by
  cases t with
  | protocol proto =>
    cases h : σ.proto proto with
    | some s => exact .inl ⟨s.scope, by simp [sectorOwner, lookupSector, lookupProtocol, sectorScopeOf,
        protocolScopeOf, h]⟩
    | none =>
      refine .inr ⟨(σ.lookupProtocol proto).1, σ.limits.getProtocolLimits proto, ?_⟩
      simp only [sectorOwner, lookupSector, lookupProtocol, sectorScopeOf, protocolScopeOf, h]
      exact ⟨rfl, trivial, rfl, rfl, rfl, rfl, rfl, rfl, rfl⟩
  | service svc =>
    cases h : σ.svc svc with
    | some s => exact .inl ⟨s.scope, by simp [sectorOwner, lookupSector, lookupService, sectorScopeOf,
        serviceScopeOf, h]⟩
    | none =>
      refine .inr ⟨(σ.lookupService svc).1, σ.limits.getServiceLimits svc, ?_⟩
      simp only [sectorOwner, lookupSector, lookupService, sectorScopeOf, serviceScopeOf, h]
      exact ⟨rfl, trivial, rfl, rfl, rfl, rfl, rfl, rfl, rfl⟩

theorem lookupSector_scope (σ : Manager) (t : Sector) :
    (σ.lookupSector t).1.scopes (σ.lookupSector t).2 = σ.sectorScopeOf t := by
  obtain ⟨a, -, hlook, hscope⟩ | ⟨τ, limit, -, hlook, hscope, hscopes, -⟩ := lookupSector_cases
  · rw [hlook, hscope]
  · rw [hlook, hscope]
    rw [hscopes, newResourceScope_scopes, if_pos rfl]

theorem lookupPeer_scope (σ : Manager) (p : PeerID) :
    (σ.lookupPeer p).1.scopes (σ.lookupPeer p).2.scope = σ.peerScopeOf p := by
  cases h : σ.peer p with
  | some s => simp only [lookupPeer, peerScopeOf, h]
  | none =>
    simp only [lookupPeer, peerScopeOf, h]
    exact (newResourceScope_scopes σ _ _ _ _).trans (if_pos rfl)

/-- An entry that refers to the system scope is created. -/
theorem trace_create (h : σ.skel.Shape)
    (hscopes : τ.scopes = (σ.newResourceScope limit [system] name).scopes)
    (hnext : τ.next = σ.next + 1) (hconns : τ.conns = σ.conns) (hstreams : τ.streams = σ.streams) :
    Trace σ τ (fun _ => 0) fun _ => False := by
  refine (Trace.refl σ).create [system] (fun e he => ?_) (nodup_singleton _) hscopes
    hnext hconns hstreams rfl
  rw [mem_singleton.mp he]
  exact ⟨(fresh_ne h.system).symm, not_new_self⟩

theorem trace_lookupSector (h : σ.skel.Shape) :
    Trace σ (σ.lookupSector t).1 (fun _ => 0) fun _ => False := by
  obtain ⟨a, -, hlook, -⟩ | ⟨τ, limit, -, hlook, -, hscopes, hnext, hconns, hstreams, -⟩ :=
    lookupSector_cases
  · rw [hlook]; exact .refl σ
  · rw [hlook]; exact trace_create h hscopes hnext hconns hstreams

theorem trace_lookupPeer (h : σ.skel.Shape) (p : PeerID) :
    Trace σ (σ.lookupPeer p).1 (fun _ => 0) fun _ => False := by
  simp only [lookupPeer]
  split
  · exact .refl σ
  · exact trace_create h rfl rfl rfl rfl

theorem Trace.lookupSubPeer (h : Trace σ τ r E) (hr : r τ.fresh = 0) (owner : ScopeId)
    (limit : Limit) (name : ScopeName) (p : PeerID) :
    Trace σ (τ.lookupSubPeer owner limit name p).1 r E := by
  simp only [Manager.lookupSubPeer]
  split
  · exact h
  · exact h.create [] (fun e he => absurd he not_mem_nil) nodup_nil rfl rfl rfl rfl hr

theorem lookupSubPeer_keeps (hx : x ≠ τ.fresh) (owner : ScopeId) (limit : Limit)
    (name : ScopeName) (p : PeerID) :
    (τ.lookupSubPeer owner limit name p).1.scopes x = τ.scopes x := by
  simp only [lookupSubPeer]
  split
  · rfl
  · exact (newResourceScope_scopes τ _ _ _ _).trans (if_neg hx)

/-- Looking a scope up changes the stat of no other. -/
theorem Looked.stat (h : σ.Looked τ) (hx : x ≠ σ.fresh) : τ.stat x = σ.stat x :=
  h.keep (π := fun s => s.rc.stat) (fun _ => rfl) hx

theorem stat_incRef (σ : Manager) (x y : ScopeId) : (σ.incRef x).stat y = σ.stat y := by
  rw [stat, incRef_scopes]
  split
  · rename_i h; rw [h]; rfl
  · rfl

theorem Created.ne_fresh (hx : σ.skel.Created x) : x ≠ σ.fresh := by
  obtain ⟨n, rfl, hlt⟩ := hx
  intro heq
  injection heq with heq
  exact absurd hlt (by rw [heq]; exact lt_irrefl _)

theorem counts_empty : ({ limit } : Resources).CountsNonneg :=
  ⟨le_refl _, le_refl _, le_refl _, le_refl _, le_refl _⟩

theorem gives_counts (limits : Limiter) : limits.Gives Resources.CountsNonneg :=
  ⟨counts_empty, counts_empty, counts_empty, counts_empty, fun _ => counts_empty,
    fun _ => counts_empty, fun _ => counts_empty, fun _ => counts_empty,
    fun _ => counts_empty, fun _ => counts_empty, counts_empty⟩

end asked

/-! ## Migrations -/

/-- The calls that move a connection or stream to other scopes. -/
inductive Migration where
  | peer (p : PeerID)
  | protocol (proto : ProtocolID)
  | service (svc : String)

def migrate (σ : Manager) (id : ScopeId) : Migration → Manager × Option RcErr
  | .peer p => σ.setPeer id p
  | .protocol proto => σ.setProtocol id proto
  | .service svc => σ.setService id svc

/-- Whether the call begins with a transfer from the allowlist. -/
def transfers (σ : Manager) (id : ScopeId) : Migration → Bool
  | .peer p => match σ.conns id with
    | none => false
    | some c => c.peer.isNone && c.isAllowlisted &&
        !σ.allowlist.allowedPeerAndMultiaddr p c.endpoint
  | _ => false

/-- The scopes the call asks to take the stat, in this order. -/
def asked (σ : Manager) (id : ScopeId) : Migration → List ResourceScope
  | .peer p => match σ.conns id with
    | none => []
    | some c =>
      if c.peer.isSome then []
      else if σ.transfers id (.peer p) then
        [σ.scopes system, σ.scopes transient, σ.peerScopeOf p]
      else [σ.peerScopeOf p]
  | .protocol proto => match σ.streams id with
    | none => []
    | some s =>
      if s.proto.isSome then []
      else [σ.protocolScopeOf proto, σ.protocolPeerScopeOf proto s.peer.peer]
  | .service svc => match σ.streams id with
    | none => []
    | some s =>
      if s.svc.isSome || s.proto.isNone then []
      else [σ.serviceScopeOf svc, σ.servicePeerScopeOf svc s.peer.peer]

/-- The first scope of the list that refuses does so cleanly, and the memory of
those that took the stat before it is not negative. -/
def Recovers (st : ScopeStat) : List ResourceScope → Prop
  | [] => True
  | s :: rest =>
    if s.Takes st then ((∀ t ∈ rest, t.Takes st) ∨ 0 ≤ s.rc.memory.toInt) ∧ Recovers st rest
    else s.RefusesCleanly st

instance Recovers.decidable (st : ScopeStat) : (ss : List ResourceScope) → Decidable (Recovers st ss)
  | [] => .isTrue trivial
  | s :: rest =>
    have := Recovers.decidable st rest
    inferInstanceAs (Decidable (if s.Takes st then
      ((∀ t ∈ rest, t.Takes st) ∨ 0 ≤ s.rc.memory.toInt) ∧ Recovers st rest
      else s.RefusesCleanly st))

/-- A transfer from the allowlist is not undone, so all scopes must take the
stat; otherwise those asked must recover. -/
def FailsCleanly (σ : Manager) (id : ScopeId) (m : Migration) : Prop :=
  if σ.transfers id m then ∀ s ∈ σ.asked id m, s.Takes (σ.stat id)
  else Recovers (σ.stat id) (σ.asked id m)

instance (σ : Manager) (id : ScopeId) (m : Migration) : Decidable (σ.FailsCleanly id m) :=
  inferInstanceAs (Decidable (if σ.transfers id m then ∀ s ∈ σ.asked id m, s.Takes (σ.stat id)
    else Recovers (σ.stat id) (σ.asked id m)))

section migrate

variable {σ : Manager} {c : ConnectionScope}

theorem recovers_one :
    Recovers st [s] ↔ s.Takes st ∨ s.RefusesCleanly st := by
  simp only [Recovers, not_mem_nil, false_imp_iff, implies_true, true_or, and_true]
  split
  · rename_i h; exact iff_of_true trivial (.inl h)
  · rename_i h; exact ⟨.inr, fun hc => hc.resolve_left h⟩

theorem recovers_two (t : ResourceScope) : Recovers st [s, t] ↔
    (¬ s.Takes st → s.RefusesCleanly st) ∧
      (s.Takes st → ¬ t.Takes st → 0 ≤ s.rc.memory.toInt ∧ t.RefusesCleanly st) := by
  rw [Recovers, recovers_one]
  by_cases hs : s.Takes st <;> by_cases ht : t.Takes st <;> simp [hs, ht]

theorem peerScopeOf_counts (h : σ.Holds Resources.CountsNonneg) (p : PeerID) :
    (σ.peerScopeOf p).rc.CountsNonneg := by
  simp only [peerScopeOf]
  split
  · exact h.scopes _
  · exact counts_empty

/-- The peer's scope is asked, and a refusal changes no connection. -/
theorem joinPeer_spec (hs : σ.skel.Shape) (hid : σ.skel.Created id)
    (c : ConnectionScope) (p : PeerID) (system transient : ScopeId) :
    ((σ.joinPeer id c p system transient).2 = none ↔ (σ.peerScopeOf p).Takes (σ.stat id)) ∧
      ((σ.joinPeer id c p system transient).2 ≠ none →
        (σ.joinPeer id c p system transient).1.conns = σ.conns ∧
        (σ.Holds Resources.CountsNonneg → (Atomic σ (σ.joinPeer id c p system transient).1 ↔
          (σ.peerScopeOf p).RefusesCleanly (σ.stat id)))) := by
  have hstat : (σ.getPeerScope p).1.stat id = σ.stat id := by
    rw [getPeerScope, stat_incRef, (looked_lookupPeer hs p).stat (Created.ne_fresh hid)]
  have hscope := lookupPeer_scope σ p
  simp only [joinPeer, hstat]
  split
  · rename_i σ₁ err heq
    have htakes := takes_iff (congrArg ResourceScope.done hscope) (congrArg rc hscope) heq
    refine ⟨by simp [htakes], fun _ => ⟨?_, fun hn => ?_⟩⟩
    · exact (congrArg Skeleton.conns (skel_of_reserveForChild heq)).trans
        (found_getPeerScope hs p).1.conns
    · exact (trace_lookupPeer hs p).refused hscope (peerScopeOf_counts hn p) heq
  · rename_i σ₁ heq
    have htakes := takes_iff (congrArg ResourceScope.done hscope) (congrArg rc hscope) heq
    exact ⟨iff_of_true rfl (htakes.mpr rfl), fun h => absurd rfl h⟩

theorem joinPeer_atomic_iff (hs : σ.skel.Shape) (hn : σ.Holds Resources.CountsNonneg)
    (hid : σ.skel.Created id) (system transient : ScopeId) :
    ((σ.joinPeer id c p system transient).2 ≠ none →
        Atomic σ (σ.joinPeer id c p system transient).1) ↔
      Recovers (σ.stat id) [σ.peerScopeOf p] := by
  obtain ⟨hnone, hfail⟩ := joinPeer_spec hs hid c p system transient
  rw [recovers_one, ← hnone, or_iff_not_imp_left]
  exact forall_congr' fun herr => (hfail herr).2 hn

/-- Where the scope of a peer inside `a` is looked for: `a` was there and is the
only scope the call has touched, or it was created by the call. -/
structure Inside (σ τ : Manager) (owner : Option ScopeId) (a : ScopeId) : Prop where
  limits : τ.limits = σ.limits
  peers : τ.peers = σ.peers
  found : ∀ o, owner = some o → o = a ∧ ∀ x, x ≠ a → τ.scopes x = σ.scopes x
  missing : owner = none → ∀ p, σ.peers a p = none

variable {τ : Manager} {owner : Option ScopeId} {σ : Manager} {ρ : Manager}

theorem Inside.scope (h : Inside σ τ owner a)
    (hne : (τ.lookupSubPeer a limit name p).2 ≠ a) :
    ((τ.lookupSubPeer a limit name p).1.scopes (τ.lookupSubPeer a limit name p).2).done =
        (σ.subPeerScopeOf owner limit name p).done ∧
      ((τ.lookupSubPeer a limit name p).1.scopes (τ.lookupSubPeer a limit name p).2).rc =
        (σ.subPeerScopeOf owner limit name p).rc := by
  have hnone : σ.peers a p = none → owner.bind (fun o => σ.peers o p) = none := by
    intro hp
    cases owner with
    | none => rfl
    | some o => rw [(h.found o rfl).1]; exact hp
  cases hp : σ.peers a p with
  | none =>
    simp only [lookupSubPeer, subPeerScopeOf, h.peers, hp, hnone hp] at hne ⊢
    have hself := (newResourceScope_scopes τ limit [] name τ.fresh).trans (if_pos rfl)
    exact ⟨congrArg ResourceScope.done hself, congrArg rc hself⟩
  | some ps =>
    cases owner with
    | none => rw [h.missing rfl] at hp; cases hp
    | some o =>
      obtain ⟨rfl, hsame⟩ := h.found o rfl
      simp only [lookupSubPeer, subPeerScopeOf, h.peers, hp, bind_some] at hne ⊢
      rw [hsame ps hne]
      exact ⟨rfl, rfl⟩

/-- No scope that does not exist yet has peers inside. -/
theorem peers_fresh (h : σ.skel.Shape) (p : PeerID) : σ.peers σ.fresh p = none := by
  cases hp : σ.peers σ.fresh p with
  | none => rfl
  | some ps =>
    rcases h.tables.subPeer hp with ⟨svc, hn, -⟩ | ⟨proto, hn, -⟩ <;> exact absurd rfl (fresh_ne hn)

theorem inside_sector (h : σ.skel.Shape)
    (heq : ((σ.lookupSector t).1.incRef (σ.lookupSector t).2).reserveForChild
      (σ.lookupSector t).2 st = (τ, err)) :
    Inside σ τ (σ.sectorOwner t) (σ.lookupSector t).2 := by
  have hlimits : τ.limits = (σ.lookupSector t).1.limits := by
    obtain rfl : (((σ.lookupSector t).1.incRef (σ.lookupSector t).2).reserveForChild
      (σ.lookupSector t).2 st).1 = τ := congrArg Prod.fst heq
    rfl
  have hpeers : τ.peers = (σ.lookupSector t).1.peers :=
    congrArg Skeleton.peers ((quiet_reserveForChild heq).skel.trans (skel_incRef _))
  obtain ⟨a, howner, hlook, -⟩ | ⟨ρ, limit, howner, hlook, -, -, -, -, -, hpeers', hlimits'⟩ :=
    lookupSector_cases
  · rw [hlook] at heq hlimits hpeers ⊢
    refine ⟨hlimits, hpeers, fun o ho => ?_, fun ho => ?_⟩
    · rw [howner] at ho
      refine ⟨(some.inj ho).symm, fun x hx => ?_⟩
      rw [reserveForChild_scopes heq, if_neg hx, incRef_scopes, if_neg hx]
    · rw [howner] at ho; cases ho
  · rw [hlook] at hlimits hpeers ⊢
    refine ⟨hlimits.trans hlimits', hpeers.trans hpeers', fun o ho => ?_, fun _ => peers_fresh h⟩
    rw [howner] at ho; cases ho

theorem subPeerScopeOf_counts (h : σ.Holds Resources.CountsNonneg) (owner : Option ScopeId)
    (limit : Limit) (name : ScopeName) (p : PeerID) :
    (σ.subPeerScopeOf owner limit name p).rc.CountsNonneg := by
  simp only [subPeerScopeOf]
  split
  · exact h.scopes _
  · exact counts_empty

/-- The second scope of a call: that of a peer inside the scope `a`, which took
the stat. -/
theorem refused_inside (hn : σ.Holds Resources.CountsNonneg)
    {nm : ScopeName} (h : Trace σ σ₀ (fun _ => 0) fun _ => False)
    (ha : σ₀.skel.Named a nm) (hsn : (σ₀.scopes a).rc.CountsNonneg)
    (heq : (σ₀.incRef a).reserveForChild a st = (σ₁, none))
    (hin : Inside σ σ₁ owner a) (hb : (σ₁.lookupSubPeer a limit name p).2 ≠ a)
    (heq' : ((σ₁.lookupSubPeer a limit name p).1.incRef
      (σ₁.lookupSubPeer a limit name p).2).reserveForChild
        (σ₁.lookupSubPeer a limit name p).2 st = (ρ, err)) :
    ((σ.subPeerScopeOf owner limit name p).Takes st ↔ err = none) ∧
      (err ≠ none → (Atomic σ (((ρ.releaseForChild a st).decRef a).decRef
          (σ₁.lookupSubPeer a limit name p).2) ↔
        0 ≤ (σ₀.scopes a).rc.memory.toInt ∧
          (σ.subPeerScopeOf owner limit name p).RefusesCleanly st)) := by
  obtain ⟨hdone, hrc⟩ := hin.scope hb
  refine ⟨takes_iff hdone hrc heq', fun herr => ?_⟩
  obtain ⟨err, rfl⟩ := ne_none_iff_exists'.mp herr
  have hq : σ₁.skel = σ₀.skel := (quiet_reserveForChild heq).skel.trans (skel_incRef σ₀)
  have ha₁ : σ₁.skel.Named a nm := hq ▸ ha
  have htrace : Trace σ σ₁ (one a) fun S => S = a :=
    ((h.incRef a).reserve heq).congr (fun S => (zero_add _).symm) fun S hS => hS.resolve_right id
  have hcreated : σ₀.skel.Created a := by
    obtain ⟨n, rfl, hlt, -⟩ := ha
    exact ⟨n, rfl, hlt⟩
  have hnext : σ₀.next ≤ (σ₁.lookupSubPeer a limit name p).1.next :=
    (congrArg Skeleton.next hq).ge.trans (looked_lookupSubPeer a limit name p).next_le
  exact h.refused_second rfl hsn hcreated heq
    (htrace.lookupSubPeer (one_fresh ha₁) a limit name p)
    (lookupSubPeer_keeps (fresh_ne ha₁).symm a limit name p) hnext hb hdone hrc
    (subPeerScopeOf_counts hn owner limit name p) heq'

theorem sectorScopeOf_counts (h : σ.Holds Resources.CountsNonneg) (t : Sector) :
    (σ.sectorScopeOf t).rc.CountsNonneg := by
  obtain ⟨a, -, -, hscope⟩ | ⟨τ, limit, -, -, hscope, -⟩ := lookupSector_cases
  · rw [hscope]; exact h.scopes a
  · rw [hscope]; exact counts_empty

theorem enroll_atomic_iff (hs : σ.skel.Shape) (hn : σ.Holds Resources.CountsNonneg)
    {n : Nat} {s : StreamScope} (he : σ.Enrolling n s t) :
    ((σ.enroll (.node n) s t).2 ≠ none → Atomic σ (σ.enroll (.node n) s t).1) ↔
      Recovers (σ.stat (.node n)) [σ.sectorScopeOf t, σ.sectorPeerScopeOf t s.peer.peer] := by
  have hstat : ((σ.lookupSector t).1.incRef (σ.lookupSector t).2).stat (.node n) =
      σ.stat (.node n) := by
    rw [stat_incRef, (looked_lookupSector hs t).stat (Created.ne_fresh ⟨n, rfl, he.lt⟩)]
  have hscope := lookupSector_scope σ t
  have hcounts := sectorScopeOf_counts hn t
  have hfound := found_lookupSector hs t
  rw [recovers_two]
  simp only [enroll, hstat]
  split
  · rename_i σ₁ err heq
    have htakes := takes_iff (congrArg ResourceScope.done hscope) (congrArg rc hscope) heq
    have hclean := (trace_lookupSector hs).refused hscope hcounts heq
    simp only [htakes, ne_eq, reduceCtorEq, not_false_eq_true, true_imp_iff, false_imp_iff, and_true]
    exact hclean
  · rename_i σ₁ heq
    have htakes := takes_iff (congrArg ResourceScope.done hscope) (congrArg rc hscope) heq
    have hin := inside_sector hs heq
    obtain ⟨hfound₁, hsub⟩ := found_second hs heq s.peer.peer
    have hb := hsub.named.ne (hfound₁.named.mono hsub.ext) (t.peerName_ne _)
    have hsecond := fun {σ₂ err} (heq' : _ = (σ₂, err)) => refused_inside hn (trace_lookupSector hs)
      hfound.named (hscope ▸ hcounts) heq hin hb heq'
    have hpeer : σ.sectorPeerScopeOf t s.peer.peer = σ.subPeerScopeOf (σ.sectorOwner t)
        (t.peerLimits σ₁.limits) (t.peerName s.peer.peer) s.peer.peer := by
      rw [hin.limits]; rfl
    rw [hscope] at hsecond
    split
    · rename_i σ₂ err heq'
      obtain ⟨htakes', hclean⟩ := hsecond heq'
      simp only [htakes, hpeer, htakes', ne_eq, reduceCtorEq, not_false_eq_true,
        true_imp_iff, not_true_eq_false, false_imp_iff, true_and]
      exact hclean (by simp)
    · rename_i σ₂ heq'
      obtain ⟨htakes', -⟩ := hsecond heq'
      simp [htakes, hpeer, htakes']

/-! ### The transfer from the allowlist -/

theorem setEdges_rc (edges : List ScopeId) :
    ((τ.setEdges id edges).scopes x).rc = (τ.scopes x).rc :=
  Graph.modify_keep (f := fun s => { s with edges })
    (fun _ => rfl) τ.scopes x

theorem setEdges_keeps (hx : x ≠ id) (edges : List ScopeId) :
    (τ.setEdges id edges).scopes x = τ.scopes x :=
  modify_of_ne hx τ.scopes fun s => { s with edges }

theorem reserveForChild_tables (heq : τ.reserveForChild x st = (ρ, err)) :
    ρ.limits = τ.limits ∧ ρ.peer = τ.peer := by
  obtain rfl : (τ.reserveForChild x st).1 = ρ := congrArg Prod.fst heq
  exact ⟨rfl, rfl⟩

theorem leaveEdges_keeps (hx : x ∉ (σ.scopes id).edges) (hid : x ≠ id) :
    (σ.leaveEdges id).scopes x = σ.scopes x :=
  (setEdges_keeps hid []).trans (modifyEach_of_notMem hx σ.scopes)

theorem leaveEdges_rc (hid : id ∉ (σ.scopes id).edges) :
    ((σ.leaveEdges id).scopes id).rc = (σ.scopes id).rc := by
  rw [leaveEdges, setEdges_rc]
  exact congrArg rc (modifyEach_of_notMem hid σ.scopes)

/-- Where a transfer that succeeded leaves the scopes it did not ask, and the
counters of the connection. -/
structure Transferred (σ τ : Manager) (id : ScopeId) : Prop where
  limits : τ.limits = σ.limits
  peer : τ.peer = σ.peer
  stat : τ.stat id = σ.stat id
  scopes : ∀ x, x ∉ (σ.scopes id).edges → x ≠ id → x ≠ system → x ≠ transient →
    τ.scopes x = σ.scopes x

theorem transfer_spec (hne : id ≠ system) (hne' : id ≠ transient)
    (hsys : system ∉ (σ.scopes id).edges) (htr : transient ∉ (σ.scopes id).edges)
    (hself : id ∉ (σ.scopes id).edges) :
    ((σ.transferAllowedToStandard id).2 = none ↔
        (σ.scopes system).Takes (σ.stat id) ∧ (σ.scopes transient).Takes (σ.stat id)) ∧
      ((σ.transferAllowedToStandard id).2 = none →
        Transferred σ (σ.transferAllowedToStandard id).1 id) := by
  have hst : system ≠ transient := by decide
  simp only [transferAllowedToStandard]
  split
  · rename_i σ₁ err heq
    have hrefuses : ¬ (σ.scopes system).Takes (σ.stat id) := by
      rw [← leaveEdges_keeps hsys hne.symm, takes_reserve heq]
      exact some_ne_none err
    simp [hrefuses]
  · rename_i σ₁ heq
    have htakes : (σ.scopes system).Takes (σ.stat id) := by
      rw [← leaveEdges_keeps hsys hne.symm, takes_reserve heq]
    have hkeep : ∀ x, x ≠ system → (σ₁.incRef system).scopes x = (σ.leaveEdges id).scopes x := by
      intro x hx
      rw [incRef_scopes, if_neg hx, reserveForChild_scopes heq, if_neg hx]
    have hscope : (σ₁.incRef system).scopes transient = σ.scopes transient :=
      (hkeep _ hst.symm).trans (leaveEdges_keeps htr hne'.symm)
    split
    · rename_i σ₂ err heq'
      have hrefuses : ¬ (σ.scopes transient).Takes (σ.stat id) := by
        rw [← hscope, takes_reserve heq']
        exact some_ne_none err
      simp [hrefuses]
    · rename_i σ₂ heq'
      have htakes' : (σ.scopes transient).Takes (σ.stat id) := by rw [← hscope, takes_reserve heq']
      refine ⟨iff_of_true rfl ⟨htakes, htakes'⟩, fun _ => ?_⟩
      have hlast : ∀ x, x ≠ system → x ≠ transient →
          (σ₂.incRef transient).scopes x = (σ.leaveEdges id).scopes x := by
        intro x hx hx'
        rw [incRef_scopes, if_neg hx', reserveForChild_scopes heq', if_neg hx', hkeep x hx]
      obtain ⟨hlim, hpeer⟩ := reserveForChild_tables heq
      obtain ⟨hlim', hpeer'⟩ := reserveForChild_tables heq'
      refine ⟨hlim'.trans hlim, hpeer'.trans hpeer, ?_, fun x hx hid hx₁ hx₂ => ?_⟩
      · rw [stat, setEdges_rc, hlast id hne hne', leaveEdges_rc hself]; rfl
      · rw [setEdges_keeps hid, hlast x hx₁ hx₂, leaveEdges_keeps hx hid]

/-- The scope of a peer after a transfer. -/
theorem Transferred.peerScope (h : Transferred σ τ id) (hs : σ.skel.Shape)
    (hid : ∀ p, ¬ σ.skel.Named id (.peer p))
    (hedges : ∀ p, ∀ e ∈ (σ.scopes id).edges, ¬ σ.skel.Named e (.peer p)) (p : PeerID) :
    τ.peerScopeOf p = σ.peerScopeOf p := by
  simp only [peerScopeOf, h.peer, h.limits]
  split
  · rename_i s hp
    have hn := (hs.tables.peer hp).2
    refine h.scopes s.scope (fun hmem => hedges p _ hmem hn) (fun heq => hid p (heq ▸ hn)) ?_ ?_
    · exact hn.ne hs.system nofun
    · exact hn.ne hs.transient nofun
  · rfl

/-- A transfer clears the flag of the connection, whatever comes after it. -/
theorem setPeer_transfer_iff (hs : σ.skel.Shape)
    (hc : σ.conns id = some c) (hpeer : c.peer = none) (hal : c.isAllowlisted = true)
    (hnot : σ.allowlist.allowedPeerAndMultiaddr p c.endpoint = false) :
    ((σ.setPeer id p).2 ≠ none → Atomic σ (σ.setPeer id p).1) ↔
      ∀ s ∈ [σ.scopes system, σ.scopes transient, σ.peerScopeOf p], s.Takes (σ.stat id) := by
  obtain ⟨n, k, rfl, hlt, -, hname, hedges⟩ := hs.conn hc
  have hnamed : σ.skel.Named (.node n) (.conn k) := ⟨n, rfl, hlt, hname⟩
  have hedges : (σ.scopes (.node n)).edges = [allowlistedTransient, allowlistedSystem] := by
    generalize hE : σ.skel.edges n = edges at hedges
    cases hedges with
    | allowlisted => exact hE
    | opened _ h | left _ h | transferred _ h => rw [hal] at h; cases h
    | peered h => rw [hpeer] at h; cases h
  have hsome : c.peer.isSome = false := by rw [hpeer]; rfl
  have hshape := shape_transfer hs hc hpeer
  have hspec := transfer_spec (σ := σ.setConn (.node n) { c with isAllowlisted := false })
    (hnamed.ne hs.system nofun) (hnamed.ne hs.transient nofun)
    (by show _ ∉ (σ.scopes (.node n)).edges; rw [hedges]; decide)
    (by show _ ∉ (σ.scopes (.node n)).edges; rw [hedges]; decide)
    (by
      show _ ∉ (σ.scopes (.node n)).edges
      rw [hedges]
      simp [hnamed.ne hs.allowlistedTransient nofun, hnamed.ne hs.allowlistedSystem nofun])
  -- the flag is gone, so a failed call has changed the connection
  have hchanged : ∀ τ, τ.conns (.node n) = some { c with isAllowlisted := false } →
      ¬ Atomic σ τ := by
    intro τ hτ ha
    rw [ha.conns, hc] at hτ
    have hflag := congrArg ConnectionScope.isAllowlisted (some.inj hτ)
    rw [hal] at hflag
    cases hflag
  simp only [forall_mem_cons, not_mem_nil, false_imp_iff, implies_true, and_true]
  simp only [setPeer, hc, hsome, hal, hnot, Bool.not_true, Bool.false_eq_true,
    if_false]
  split
  · rename_i σ₁ err heq
    rw [heq] at hspec hshape
    refine iff_of_false (fun h => hchanged σ₁ hshape.2 (h (by simp))) fun h => ?_
    exact absurd (hspec.1.mpr ⟨h.1, h.2.1⟩) (by simp)
  · rename_i σ₁ heq
    rw [heq] at hspec hshape
    obtain ⟨hsys, htr⟩ := hspec.1.mp rfl
    have hmoved := hspec.2 rfl
    have hmoved : Transferred σ σ₁ (.node n) :=
      ⟨hmoved.limits, hmoved.peer, hmoved.stat, hmoved.scopes⟩
    have hcreated : σ₁.skel.Created (.node n) := hshape.1.conns (by
      rw [show σ₁.skel.conns (.node n) = _ from hshape.2]; simp)
    have hscope := hmoved.peerScope hs (fun q hq => absurd (Skeleton.named_unique hnamed hq) (by simp))
      (fun q e he hq => by
        rw [hedges] at he
        rcases mem_cons.mp he with rfl | he
        · exact absurd (Skeleton.named_unique hs.allowlistedTransient hq) (by simp)
        · rw [mem_singleton.mp he] at hq
          exact absurd (Skeleton.named_unique hs.allowlistedSystem hq) (by simp)) p
    obtain ⟨hnone, hsame⟩ := joinPeer_spec hshape.1 hcreated { c with isAllowlisted := false } p
      system transient
    rw [hscope, hmoved.stat] at hnone
    refine trans ?_ (hnone.trans ⟨fun h => ⟨hsys, htr, h⟩, fun h => h.2.2⟩)
    refine ⟨fun h => ?_, fun h h' => absurd h h'⟩
    by_contra herr
    refine hchanged _ ?_ (h herr)
    rw [(hsame herr).1]; exact hshape.2

/-! ### All calls -/

theorem atomic_self : Atomic σ σ :=
  (Trace.refl σ).atomic_iff.mpr fun _ hx => hx.elim

/-- A call that changes nothing. -/
theorem atomic_iff_of_same (h : τ = σ) : (err ≠ none → Atomic σ τ) ↔ Recovers (σ.stat system) [] :=
  iff_of_true (fun _ => h ▸ atomic_self) trivial

section

variable (hs : σ.skel.Shape) (hn : σ.Holds Resources.CountsNonneg) (id : ScopeId)
include hs hn

theorem setPeer_failsCleanly :
    ((σ.setPeer id p).2 ≠ none → Atomic σ (σ.setPeer id p).1) ↔ σ.FailsCleanly id (.peer p) := by
  cases hc : σ.conns id with
  | none =>
    simp only [setPeer, FailsCleanly, transfers, asked, hc]
    exact atomic_iff_of_same rfl
  | some c =>
    have hid : σ.skel.Created id := hs.conns (by
      rw [show σ.skel.conns id = _ from hc]; simp)
    cases hpeer : c.peer with
    | some P =>
      simp only [setPeer, FailsCleanly, transfers, asked, hc, hpeer]
      exact atomic_iff_of_same rfl
    | none =>
      cases hal : c.isAllowlisted with
      | false =>
        simp only [setPeer, FailsCleanly, transfers, asked, hc, hpeer, hal]
        exact joinPeer_atomic_iff hs hn hid system transient
      | true =>
        cases hallow : σ.allowlist.allowedPeerAndMultiaddr p c.endpoint with
        | true =>
          simp only [setPeer, FailsCleanly, transfers, asked, hc, hpeer, hal, hallow, Bool.not_true]
          exact joinPeer_atomic_iff hs hn hid allowlistedSystem allowlistedTransient
        | false =>
          have htransfer : σ.transfers id (.peer p) = true := by
            simp [transfers, hc, hpeer, hal, hallow]
          simp only [FailsCleanly, htransfer, asked, hc, hpeer]
          exact setPeer_transfer_iff hs hc hpeer hal hallow

theorem setProtocol_failsCleanly (proto : ProtocolID) :
    ((σ.setProtocol id proto).2 ≠ none → Atomic σ (σ.setProtocol id proto).1) ↔
      σ.FailsCleanly id (.protocol proto) := by
  simp only [FailsCleanly]
  cases hst : σ.streams id with
  | none => simp only [setProtocol, asked, hst]; exact atomic_iff_of_same rfl
  | some s =>
    cases hp : s.proto with
    | some P =>
      simp only [setProtocol, asked, hst, hp]
      exact atomic_iff_of_same rfl
    | none =>
      simp only [asked, hst, hp]
      obtain ⟨n, rfl, he, heq⟩ := enrolling_protocol hs hst hp proto
      rw [heq]
      exact enroll_atomic_iff hs hn he

theorem setService_failsCleanly (svc : String) :
    ((σ.setService id svc).2 ≠ none → Atomic σ (σ.setService id svc).1) ↔
      σ.FailsCleanly id (.service svc) := by
  simp only [FailsCleanly]
  cases hst : σ.streams id with
  | none => simp only [setService, asked, hst]; exact atomic_iff_of_same rfl
  | some s =>
    cases hv : s.svc with
    | some V =>
      simp only [setService, asked, hst, hv]
      exact atomic_iff_of_same rfl
    | none =>
      cases hp : s.proto with
      | none =>
        simp only [setService, asked, hst, hv, hp]
        exact atomic_iff_of_same rfl
      | some P =>
        simp only [asked, hst, hv, hp]
        obtain ⟨n, rfl, he, heq⟩ := enrolling_service hs hst hv hp svc
        rw [heq]
        exact enroll_atomic_iff hs hn he

end

end migrate

end Manager

/-- In every state a run can reach, and for every connection and stream, a
`SetPeer`, `SetProtocol` or `SetService` that fails leaves everything as it was
exactly when no transfer from the allowlist is cut short and the scopes it asked
recover. -/
theorem failed_migration_atomic_iff (limits : Limiter) (cl : ConnLimiter) (al : Allowlist)
    (stickyProto : ProtocolID → Bool) (stickyPeer : PeerID → Bool) {σ : Manager}
    (hreach : Reach Manager.step (fun _ _ => True)
      (Manager.newResourceManager limits cl al stickyProto stickyPeer) σ)
    (id : ScopeId) (m : Manager.Migration) :
    ((σ.migrate id m).2 ≠ none → Manager.Atomic σ (σ.migrate id m).1) ↔ σ.FailsCleanly id m := by
  have hinv : σ.skel.Shape ∧ σ.Holds Resources.CountsNonneg := by
    refine hreach.invariant (I := fun τ => τ.skel.Shape ∧ τ.Holds Resources.CountsNonneg) ?_ ?_
    · exact ⟨shape_newResourceManager limits cl al stickyProto stickyPeer,
        newResourceManager_holds (gives_counts limits) cl al stickyProto stickyPeer⟩
    · intro τ op _ _ hτ
      exact ⟨shape_step hτ.1 op, hτ.2.step Resources.counts_invariant op fun _ _ _ => trivial⟩
  obtain ⟨hs, hn⟩ := hinv
  cases m with
  | peer p => exact setPeer_failsCleanly hs hn id
  | protocol proto => exact setProtocol_failsCleanly hs hn id proto
  | service svc => exact setService_failsCleanly hs hn id svc

/-- One connection of everything. -/
def oneLimit : Limit :=
  { fourLimit with conns := 1, connsInbound := 1, connsOutbound := 1 }

/-- Four connections, but one of each peer. -/
def onePeerManager : Manager :=
  Manager.newResourceManager { Limiter.uniform fourLimit with getPeerLimits := fun _ => oneLimit }
    ConnLimiter.newConnLimiter {} (fun _ => false) fun _ => false

/-- Two connections, the first of which is of peer `a`. -/
def twoConns : Manager :=
  onePeerManager.run [.openConnectionNoIP .inbound true ⟨none⟩, .setPeer (.node 4) "a",
    .openConnectionNoIP .inbound true ⟨none⟩]

/-- The second connection is refused by the scope of the peer, and nothing changes. -/
theorem failed_migration_atomic_twoConns :
    (twoConns.migrate (.node 6) (.peer "a")).2 ≠ none ∧
      Manager.Atomic twoConns (twoConns.migrate (.node 6) (.peer "a")).1 := by
  have herr : (twoConns.migrate (.node 6) (.peer "a")).2 ≠ none := by decide +kernel
  have hreach : Reach step (fun _ _ => True) onePeerManager twoConns :=
    .step (Op.openConnectionNoIP .inbound true ⟨none⟩) (.step (Op.setPeer (.node 4) "a")
      (.step (Op.openConnectionNoIP .inbound true ⟨none⟩) .init trivial) trivial) trivial
  exact ⟨herr, (failed_migration_atomic_iff _ .newConnLimiter {} (fun _ => false)
    (fun _ => false) hreach (.node 6) (.peer "a")).mpr (by decide +kernel) herr⟩

/-- One connection of everything, and an allowlist that names peer `q` in one network. -/
def oneManager : Manager :=
  Manager.newResourceManager (.uniform oneLimit) ConnLimiter.newConnLimiter
    { allowedPeerByNetwork := [("q", [⟨.v4 0x0a000000#32, 8⟩])] } (fun _ => false) fun _ => false

/-- Two connections from the network of the allowlist: the first fills the
standard scopes, the second is opened in the allowlisted ones. -/
def allowlistedConn : Manager :=
  oneManager.run [.openConnection .inbound true ⟨some (.v4 0x0a000001#32)⟩,
    .openConnection .inbound true ⟨some (.v4 0x0a000002#32)⟩]

/-- The second connection turns out to be of another peer. It is taken out of the
allowlisted scopes, the standard ones refuse it, and it stays in none. -/
theorem setPeer_refused_transfer :
    Reach Manager.step (fun _ _ => True) oneManager allowlistedConn ∧
      (allowlistedConn.scopes (.node 6)).done = false ∧
      (allowlistedConn.scopes (.node 6)).edges = [allowlistedTransient, allowlistedSystem] ∧
      (allowlistedConn.migrate (.node 6) (.peer "a")).2 ≠ none ∧
      ((allowlistedConn.migrate (.node 6) (.peer "a")).1.scopes (.node 6)).edges = [] ∧
      ¬ Manager.Atomic allowlistedConn (allowlistedConn.migrate (.node 6) (.peer "a")).1 := by
  refine ⟨.step (Op.openConnection .inbound true ⟨some (.v4 0x0a000002#32)⟩)
    (.step (Op.openConnection .inbound true ⟨some (.v4 0x0a000001#32)⟩) .init trivial) trivial,
    by decide +kernel, by decide +kernel, by decide +kernel, by decide +kernel, fun h => ?_⟩
  have hconns := congrFun h.conns (.node 6)
  revert hconns
  decide +kernel

end Dep2p.Rcmgr
