import Dep2p.Rcmgr.Spans

/- Runs of calls on a tree of spans (`scope.go`).

   The calls are `Fair`: a scope releases at most what it holds beyond its open spans, and
   no counter leaves the `int64` range. A scope can close before its spans; they keep their
   counters then, and the closed scope is a barrier for what they do later.

   What is proved:
     1. `Rooted.below_closed`: nothing gets past a closed scope.
     2. `Kept.step`, `Kept.clampFree`: a fair call keeps the books and reaches no clamp.
     3. `spans_never_double_release`: the three in every state of a run. -/
namespace Dep2p.Rcmgr

open Lib List ResourceScope

namespace Graph

/-! ## A closed scope is a barrier -/

section Barrier

variable {n : Nat} {g : Graph} {id s x : ScopeId}

theorem root_of_mem_chain (h : s ∈ id.chain) : s.root = id.root := by
  induction id with
  | node n => rw [mem_singleton.mp h]
  | span owner k ih =>
    rcases mem_cons.mp h with rfl | h
    · rfl
    · exact ih h

/-- What stands above a scope of the chain is no span of the scope at its beginning. -/
theorem Rooted.ne_span (hr : Rooted n g) (id : ScopeId) (hid : id.root = n) (hs : s ∈ id.chain)
    (hx : x ∈ g.path s) (k : Nat) : x ≠ .span id k := by
  have hsmall : ∀ s, s.root = n → ∀ x ∈ g.path s,
      (∃ m, x = .node m) ∨ sizeOf x ≤ sizeOf s := by
    intro s hs
    induction s with
    | node m =>
      obtain rfl : m = n := hs
      intro x hx
      rcases mem_cons.mp hx with rfl | hx
      · exact .inr (le_refl _)
      · obtain ⟨j, -, heq⟩ := hr.other x hx
        exact .inl ⟨j, heq⟩
    | span owner j ih =>
      intro x hx
      rcases mem_cons.mp hx with rfl | hx
      · exact .inr (le_refl _)
      · refine (ih hs x hx).imp_right fun hle => ?_
        simp only [ScopeId.span.sizeOf_spec]
        omega
  rintro rfl
  rcases hsmall s ((root_of_mem_chain hs).trans hid) _ hx with ⟨m, heq⟩ | hle
  · cases heq
  · have := ScopeId.sizeOf_of_mem_chain hs
    simp only [ScopeId.span.sizeOf_spec] at hle
    omega

/-- A release does not get past a closed scope. -/
theorem Rooted.notMem_reached (hr : Rooted n g) (hid : id.root = n) (hdone : (g s).done = true)
    (hs : s ∈ id.chain) (hx : x ∈ g.path s) : x ∉ g.reached id := by
  induction id with
  | node m =>
    rw [mem_singleton.mp hs] at hdone
    rw [reached_of_done hdone]
    exact not_mem_nil
  | span owner k ih =>
    simp only [reached]
    split
    · exact not_mem_nil
    rename_i hopen
    rcases mem_cons.mp hs with rfl | hs
    · exact absurd hdone hopen
    · exact fun h => (mem_cons.mp h).elim (hr.ne_span owner hid hs hx k) (ih hid hs)

theorem Rooted.release_below_closed (hr : Rooted n g) (f : Resources → Resources) (hid : id.root = n)
    (hdone : (g s).done = true) (hs : s ∈ id.chain) (hx : x ∈ g.path s) :
    g.release f id x = g x := by
  rw [hr.release_eq hid, Store.modifyEach_of_notMem (hr.notMem_reached hid hdone hs hx)]

theorem mem_path_of_mem_chain (hs : s ∈ id.chain) : s ∈ g.path id := by
  induction id with
  | node n =>
    rw [mem_singleton.mp hs]
    exact mem_cons_self
  | span owner k ih =>
    rcases mem_cons.mp hs with rfl | hs
    · exact mem_cons_self
    · exact mem_cons_of_mem _ (ih hs)

theorem Rooted.acquire_below_closed (hr : Rooted n g) (r : Reservation) (hid : id.root = n)
    (hdone : (g s).done = true) (hs : s ∈ id.chain) (hx : x ∈ g.path s) :
    (acquire r id g).1 x = g x := by
  have hn := hr.path_nodup hid
  rcases Store.forall_or_first (fun x => (g x).Admits r) (g.path id) with
    hall | ⟨pre, y, post, hp, hpre, hy⟩
  · have hadm := (admits_iff.mp (hall s (mem_path_of_mem_chain hs))).1
    exact absurd hdone (by simp [hadm])
  · obtain ⟨err, hrun⟩ := (acquire_charges id g hn).refuses pre y post hp hpre hy
    have hopen : ∀ z ∈ pre, (g z).done = false :=
      fun z hz => (admits_iff.mp (hpre z hz)).1
    rw [hrun]
    exact Store.modifyEach_of_notMem
      (fun hmem => hr.notMem_reached hid hdone hs hx (mem_reached_of_path hp hopen hmem)) g

theorem Rooted.doneUnlocked_below_closed (hr : Rooted n g) (hid : id.root = n)
    (hdone : (g s).done = true) (hs : s ∈ id.chain) (hx : x ∈ g.path s) :
    (g.doneUnlocked id x).rc = (g x).rc := by
  unfold doneUnlocked
  cases hopen : (g id).done with
  | true => rfl
  | false =>
    cases id with
    | node m =>
      rw [mem_singleton.mp hs, hopen] at hdone
      exact absurd hdone (by decide)
    | span owner k =>
      rcases mem_cons.mp hs with rfl | hs
      · rw [hopen] at hdone
        exact absurd hdone (by decide)
      · simp only [Bool.false_eq_true, if_false]
        rw [Store.modify_of_ne (hr.ne_span owner hid hs hx k)]
        refine (modify_keep (f := decRef)
          (fun _ => rfl) _ x).trans ?_
        exact congrArg _ (hr.release_below_closed _ hid hdone hs hx)

theorem Rooted.beginSpan_below_closed (hr : Rooted n g) (hid : id.root = n)
    (hs : s ∈ id.chain) (hx : x ∈ g.path s) : ((g.beginSpan id).1 x).rc = (g x).rc := by
  cases hopen : (g id).done with
  | true =>
    unfold beginSpan
    rw [if_pos hopen]
  | false => exact beginSpan_keep (fun _ _ _ => rfl) hopen (hr.ne_span id hid hs hx _)

end Barrier

end Graph

/-! ## Runs -/

/-- A call on a scope of the tree. -/
inductive SpanCall where
  | reserveMemory (id : ScopeId) (size : Int64) (prio : UInt8)
  | releaseMemory (id : ScopeId) (size : Int64)
  | beginSpan (id : ScopeId)
  | done (id : ScopeId)

namespace SpanCall

def scope : SpanCall → ScopeId
  | .reserveMemory id _ _ => id
  | .releaseMemory id _ => id
  | .beginSpan id => id
  | .done id => id

def step (g : Graph) : SpanCall → Graph
  | .reserveMemory id size prio => (g.reserveMemory id size prio).1
  | .releaseMemory id size => g.releaseMemory id size
  | .beginSpan id => (g.beginSpan id).1
  | .done id => g.doneUnlocked id

/-- The scope is one of the tree, a release is at most what the scope holds beyond its open
spans, and no counter leaves the `int64` range, which only an unlimited scope lets happen. -/
def Fair (n : Nat) (g : Graph) (call : SpanCall) : Prop :=
  call.scope.root = n ∧
    match call with
    | .reserveMemory id size prio =>
      (∀ x ∈ g.path id, (g x).Admits (.memory size prio)) →
        ∀ x ∈ g.path id, (g x).rc.memory.toInt + size.toInt < 2 ^ 63
    | .releaseMemory id size =>
      ((g id).done = false → size.toInt ≤ ((g id).rc.usage - g.spansUsage id) .memory) ∧
        ∀ x ∈ g.reached id, (g x).rc.memory.toInt - size.toInt < 2 ^ 63
    | _ => True

end SpanCall

/-- None of the clamps of `releaseMemory`, `removeStreams` and `removeConns` is reached. -/
structure Resources.Unclamped (rc : Resources) (st : ScopeStat) : Prop where
  memory : ¬ rc.memory - st.memory < 0
  streamsIn : ¬ rc.nstreamsIn - st.numStreamsInbound < 0
  streamsOut : ¬ rc.nstreamsOut - st.numStreamsOutbound < 0
  connsIn : ¬ rc.nconnsIn - st.numConnsInbound < 0
  connsOut : ¬ rc.nconnsOut - st.numConnsOutbound < 0
  fd : ¬ rc.nfd - st.numFD < 0

theorem Resources.unclamped_of_le {rc : Resources} {st : ScopeStat} (h₀ : 0 ≤ st.memory.toInt)
    (h : st.usage ≤ rc.usage) : rc.Unclamped st := by
  have hle : ∀ c, st.usage c ≤ rc.usage c := h
  have hmem := hle .memory
  change st.memory.toInt ≤ rc.memory.toInt at hmem
  have hr := rc.memory.toInt_lt
  refine ⟨?_, ?_, ?_, ?_, ?_, ?_⟩
  · rw [lt_zero_iff, toInt_sub_of_range (by omega) (by omega)]
    omega
  · exact not_lt.mpr (sub_nonneg_of_le (hle .streamsIn))
  · exact not_lt.mpr (sub_nonneg_of_le (hle .streamsOut))
  · exact not_lt.mpr (sub_nonneg_of_le (hle .connsIn))
  · exact not_lt.mpr (sub_nonneg_of_le (hle .connsOut))
  · exact not_lt.mpr (sub_nonneg_of_le (hle .fd))

/-- The call reaches no clamp: not where it takes a reservation back, not where it releases
memory, and not where it returns what a closed scope held. -/
def SpanCall.ClampFree (g : Graph) : SpanCall → Prop
  | .reserveMemory id size prio => ∀ pre x post, g.path id = pre ++ x :: post →
      (∀ y ∈ pre, (g y).Admits (.memory size prio)) → ¬ (g x).Admits (.memory size prio) →
        ∀ y ∈ pre, ¬ ((g y).rc.memory + size) - size < 0
  | .releaseMemory id size => ∀ x ∈ g.reached id, ¬ (g x).rc.memory - size < 0
  | .beginSpan _ => True
  | .done id => (g id).done = false → ∀ x ∈ g.above id, (g x).rc.Unclamped (g id).rc.stat

namespace Graph

variable {n : Nat} {g : Graph} {call : SpanCall}

theorem Kept.step (h : Kept n g) (hok : call.Fair n g) : Kept n (call.step g) := by
  cases call with
  | reserveMemory id size prio => exact h.reserveMemory hok.1 hok.2
  | releaseMemory id size => exact h.releaseMemory hok.1 hok.2.1 hok.2.2
  | beginSpan id => exact h.beginSpan hok.1
  | done id => exact h.doneUnlocked hok.1

theorem Kept.clampFree (h : Kept n g) (hok : call.Fair n g) : call.ClampFree g := by
  cases call with
  | reserveMemory id size prio =>
    intro pre x post hp hpre _ y hy
    have hopen : ∀ z ∈ pre, (g z).done = false :=
      fun z hz => (admits_iff.mp (hpre z hz)).1
    have hnn : 0 ≤ (g y).rc.memory.toInt :=
      h.reached_nonneg hok.1 (mem_reached_of_path hp hopen hy) .memory
    rw [Int64.add_sub_cancel, lt_zero_iff]
    omega
  | releaseMemory id size =>
    intro x hx
    obtain ⟨hid, hown, hrange⟩ := hok
    have hopen : (g id).done = false := by
      cases hdone : (g id).done with
      | false => rfl
      | true => rw [reached_of_done hdone] at hx; exact absurd hx not_mem_nil
    have hle := hown hopen
    rw [Pi.sub_apply] at hle
    have hspans : 0 ≤ g.spansUsage id .memory := h.spansUsage_nonneg hid .memory
    have hup : (g id).rc.usage .memory ≤ (g x).rc.memory.toInt := h.le_of_reached hid hx .memory
    have hlt := hrange x hx
    rw [lt_zero_iff, toInt_sub_of_range (by omega) hlt]
    omega
  | beginSpan id => trivial
  | done id =>
    intro hopen x hx
    exact Resources.unclamped_of_le (h.nonneg id hok.1 .memory) (h.above_le hok.1 hopen hx)

theorem Rooted.below_closed (h : Rooted n g) (hroot : call.scope.root = n) {s x : ScopeId}
    (hdone : (g s).done = true) (hs : s ∈ call.scope.chain) (hx : x ∈ g.path s) :
    (call.step g x).rc = (g x).rc := by
  cases call with
  | reserveMemory id size prio =>
    exact congrArg _ (h.acquire_below_closed (.memory size prio) hroot hdone hs hx)
  | releaseMemory id size => exact congrArg _ (h.release_below_closed _ hroot hdone hs hx)
  | beginSpan id => exact h.beginSpan_below_closed hroot hs hx
  | done id => exact h.doneUnlocked_below_closed hroot hdone hs hx

/-- A scope under which no span was begun yet, or all are closed, with edges that hold at
least what it holds. -/
structure Planted (n : Nat) (g : Graph) : Prop extends Rooted n g where
  nonneg : 0 ≤ (g (.node n)).rc.usage
  edgeLe : ∀ e ∈ (g (.node n)).edges, (g e).done = false →
    (g (.node n)).rc.usage ≤ (g e).rc.usage
  noSpans : ∀ o k, o.root = n → (g (.span o k)).done = true ∧ (g (.span o k)).spanID = 0 ∧
    0 ≤ (g (.span o k)).rc.usage

theorem Planted.kept (h : Planted n g) : Kept n g where
  toRooted := h.toRooted
  owns := fun y hy hopen => by
    have hzero : g.spansUsage y = 0 := Ledger.total_eq_zero fun k _ => by
      rw [(h.noSpans y (k + 1) hy).1, if_pos rfl]
    rw [hzero]
    cases y with
    | node m =>
      obtain rfl : m = n := hy
      exact h.nonneg
    | span o k => exact (h.noSpans o k hy).2.2
  nonneg := fun y hy => by
    cases y with
    | node m =>
      obtain rfl : m = n := hy
      exact h.nonneg
    | span o k => exact (h.noSpans o k hy).2.2
  born := fun o k ho hopen => by
    rw [(h.noSpans o k ho).1] at hopen
    exact absurd hopen (by decide)
  unborn := fun o k ho _ => (h.noSpans o k ho).2.1
  edgeLe := fun _ => h.edgeLe

end Graph

/-- In every state reached by fair calls on the tree under a scope: an open scope holds at
least what its open spans hold together; no fair call reaches a clamp; and once a scope is
closed, no call on it or below it changes its counters or those of anything above it. -/
theorem spans_never_double_release (n : Nat) (g₀ g : Graph) (h₀ : g₀.Planted n)
    (h : Reach SpanCall.step (SpanCall.Fair n) g₀ g) :
    (∀ id, id.root = n → (g id).done = false → g.spansUsage id ≤ (g id).rc.usage) ∧
      (∀ call : SpanCall, call.Fair n g → call.ClampFree g) ∧
      ∀ s, (g s).done = true → ∀ call : SpanCall, call.scope.root = n → s ∈ call.scope.chain →
        ∀ x ∈ g.path s, (call.step g x).rc = (g x).rc := by
  have hkept : g.Kept n := h.invariant h₀.kept fun _ _ _ hok hinv => hinv.step hok
  exact ⟨hkept.owns, fun call hok => hkept.clampFree hok,
    fun s hdone call hroot hs x hx => hkept.below_closed hroot hdone hs hx⟩

/-- One scope without edges and without spans. -/
def loneScope (limit : Limit) : Graph
  | .node 0 => { rc := { limit }, name := .system }
  | _ => { done := true, rc := { limit }, name := .system }

theorem loneScope_planted (limit : Limit) : (loneScope limit).Planted 0 where
  nodup := nodup_nil
  other := fun e he => absurd he not_mem_nil
  nonneg := by
    have := Resources.usage_zero { limit }
    exact this.symm.le
  edgeLe := fun e he => absurd he not_mem_nil
  noSpans := fun o k _ => ⟨rfl, rfl, (Resources.usage_zero { limit }).symm.le⟩

/-- A span that outlives its owner. -/
def outlived : Graph :=
  [SpanCall.beginSpan (.node 0), .reserveMemory (.span (.node 0) 1) 5 255, .done (.node 0)].foldl
    SpanCall.step (loneScope fourLimit)

theorem spans_never_double_release_outlived :
    (SpanCall.done (.span (.node 0) 1)).ClampFree outlived := by
  refine (spans_never_double_release 0 (loneScope fourLimit) outlived (loneScope_planted _)
    (.foldl .init ?_)).2.1 _ ⟨rfl, trivial⟩
  refine ⟨⟨rfl, trivial⟩, ⟨rfl, fun _ x hx => ?_⟩, ⟨rfl, trivial⟩, trivial⟩
  rcases mem_cons.mp hx with rfl | hx
  · decide +kernel
  · rw [mem_singleton.mp hx]
    decide +kernel

/-- An owner gives back what its span reserved. -/
def overdrawn : Graph :=
  [SpanCall.beginSpan (.node 0), .reserveMemory (.span (.node 0) 1) 5 255,
    .releaseMemory (.node 0) 5].foldl SpanCall.step (loneScope fourLimit)

/-- Two spans of an unlimited owner. -/
def wrapped : Graph :=
  [SpanCall.beginSpan (.node 0), .beginSpan (.node 0),
    .reserveMemory (.span (.node 0) 1) Int64.maxValue 255,
    .reserveMemory (.span (.node 0) 2) 1 255].foldl SpanCall.step (loneScope infiniteBaseLimit)

/-- An owner that closed before its span has nothing while the span has five bytes; one that
gave back its span's bytes has less than the span, and the clamp is reached when the span
closes; and the counter of an unlimited owner goes below zero. -/
theorem span_books_broken :
    ((outlived (.span (.node 0) 1)).done = false ∧
      (outlived (.node 0)).rc.usage .memory < outlived.spansUsage (.node 0) .memory) ∧
    ((overdrawn (.node 0)).rc.usage .memory < overdrawn.spansUsage (.node 0) .memory ∧
      ¬ (SpanCall.done (.span (.node 0) 1)).ClampFree overdrawn) ∧
    (wrapped (.node 0)).rc.usage .memory < 0 := by
  refine ⟨by decide +kernel, ⟨by decide +kernel, fun h => ?_⟩, by decide +kernel⟩
  have hclamp := (h (by decide +kernel) (.node 0) (by decide +kernel)).memory
  exact absurd hclamp (by decide +kernel)

end Dep2p.Rcmgr
