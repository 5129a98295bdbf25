import Dep2p.Lib.IndexedHeap
import Mathlib.Data.List.Range
import Mathlib.Data.List.Perm.Basic

/- Merging streams through a heap of their heads.

   Streams are numbered; the heap holds the numbers of those that have something left,
   compared by the key of what is next in them. Taking the next element advances the stream
   at the root, which is then sifted down or, when it has come to its end, removed.

   `merge_perm` says that nothing is lost, and `merge_sorted` that sorted streams are merged
   into a sorted list. -/
namespace Dep2p.Lib

open Function List IndexedHeap

/-- The heap of the streams that have something left, and what each has left. -/
structure Merge (α : Type) where
  heap : IndexedHeap Nat
  rest : Nat → List α

namespace Merge

variable {α κ : Type} [LinearOrder κ] [Inhabited α] (key : α → κ)

def empty : Merge α := ⟨IndexedHeap.empty, fun _ => []⟩

/-- The key a stream is compared by. -/
def headKey (m : Merge α) (i : Nat) : κ := key ((m.rest i).headD default)

/-- A stream that has come to its end at once is not pushed. -/
def add (m : Merge α) (i : Nat) (xs : List α) : Merge α :=
  let m' : Merge α := { m with rest := Function.update m.rest i xs }
  if xs.isEmpty then m' else { m' with heap := m'.heap.push (m'.headKey key) i }

def next (m : Merge α) : Option (α × Merge α) :=
  if m.heap.len = 0 then none
  else
    let i := m.heap.item 0
    let m' : Merge α := { m with rest := Function.update m.rest i (m.rest i).tail }
    some ((m.rest i).headD default,
      if (m.rest i).tail.isEmpty then { m' with heap := m'.heap.remove (m'.headKey key) 0 }
      else { m' with heap := m'.heap.fix (m'.headKey key) 0 })

/-- What up to `n` reads give. -/
def drain : Nat → Merge α → List α
  | 0, _ => []
  | n + 1, m =>
    match m.next key with
    | none => []
    | some (x, m') => x :: drain n m'

def addAll (m : Merge α) (i : Nat) : List (List α) → Merge α
  | [] => m
  | xs :: xss => addAll (m.add key i xs) (i + 1) xss

/-- Everything the streams give, read until nothing is left. -/
def merge (xss : List (List α)) : List α := drain key xss.flatten.length (addAll key empty 0 xss)

/-! ## What is kept -/

/-- The heap is in order and holds the streams that have something left. -/
structure Kept (m : Merge α) : Prop where
  tracks : m.heap.Tracks
  ordered : m.heap.Ordered (m.headKey key) m.heap.len
  mem : ∀ i, m.heap.Mem i ↔ m.rest i ≠ []

/-- What the first `n` streams have left. -/
def contents (m : Merge α) (n : Nat) : List α := (range n).flatMap m.rest

variable {key} {m : Merge α} {i n : Nat} {xs : List α}

theorem kept_empty : Kept key (empty : Merge α) where
  tracks := tracks_empty
  ordered _ _ h := absurd h (Nat.not_lt_zero _)
  mem _ := ⟨fun ⟨_, h, _⟩ => absurd h (Nat.not_lt_zero _), fun h => absurd rfl h⟩

omit [LinearOrder κ] in
/-- Another stream's key does not see an update. -/
theorem headKey_update {j : Nat} (h : j ≠ i) (heap : IndexedHeap Nat) :
    headKey key ⟨heap, Function.update m.rest i xs⟩ j = headKey key m j := by
  unfold headKey
  dsimp only
  rw [update_of_ne h]

theorem Kept.add (h : Kept key m) (hi : m.rest i = []) : Kept key (m.add key i xs) := by
  have hout : ¬ m.heap.Mem i := fun hmem => (h.mem i).mp hmem hi
  have hindex : m.heap.index i = -1 := (h.tracks.outside i).resolve_right hout
  have hordered : m.heap.Ordered (headKey key ⟨m.heap, update m.rest i xs⟩) m.heap.len := by
    intro c hc hcn
    have hp := parent_lt hc
    have hne {c : Nat} (hcn : c < m.heap.len) : m.heap.item c ≠ i := fun he => hout ⟨c, hcn, he⟩
    unfold IndexedHeap.Below
    rw [headKey_update (hne hcn), headKey_update (hne (by omega))]
    exact h.ordered c hc hcn
  unfold Merge.add
  split
  · rename_i hxs
    refine ⟨h.tracks, hordered, fun j => ?_⟩
    by_cases hj : j = i
    · subst hj
      simp [isEmpty_iff.mp hxs, hout]
    · simp [update_of_ne hj, h.mem j]
  · rename_i hxs
    have hadds := adds_push (headKey key ⟨m.heap, update m.rest i xs⟩) h.tracks hindex
    refine ⟨hadds.tracks, hordered.push i, fun j => ?_⟩
    rw [hadds.mem j]
    by_cases hj : j = i
    · subst hj
      simpa using hxs
    · simp [h.mem j, hj]

variable {x : α} {m' : Merge α} {xss : List (List α)}

/-- A read gives the head of the stream at the root, and leaves the rest of it. -/
theorem Kept.next (h : Kept key m) (hnext : m.next key = some (x, m')) :
    Kept key m' ∧ ∃ i, m.rest i = x :: m'.rest i ∧ m'.rest = update m.rest i (m'.rest i) ∧
      ∀ j, m.rest j ≠ [] → key x ≤ m.headKey key j := by
  unfold Merge.next at hnext
  split at hnext
  · cases hnext
  rename_i hlen
  have hpos : 0 < m.heap.len := Nat.pos_of_ne_zero hlen
  obtain ⟨hx, hm'⟩ := Prod.mk.inj (Option.some.inj hnext)
  -- the stream at the root has something left
  have hroot : m.rest (m.heap.item 0) ≠ [] := (h.mem _).mp ⟨0, hpos, rfl⟩
  obtain ⟨y, ys, hys⟩ := exists_cons_of_ne_nil hroot
  have hxy : x = y := by rw [← hx, hys]; rfl
  have hrest : m'.rest = update m.rest (m.heap.item 0) ys := by
    rw [← hm', hys]
    split <;> rfl
  have hloose : IndexedHeap.Loose (headKey key ⟨m.heap, update m.rest (m.heap.item 0) ys⟩)
      m.heap m.heap.len 0 := by
    refine h.ordered.loose hpos fun c hc hc0 => headKey_update ?_ _
    intro he
    exact hc0 (h.tracks.inj hc hpos he)
  refine ⟨?_, m.heap.item 0, ?_, ?_, ?_⟩
  · rw [← hm', hys, tail_cons]
    split
    · rename_i hnil
      have htakes := takes_remove
        (headKey key ⟨m.heap, update m.rest (m.heap.item 0) ys⟩) h.tracks hpos
      refine ⟨htakes.tracks, ?_, fun j => ?_⟩
      · dsimp only
        rw [htakes.len]
        exact hloose.remove hpos
      · rw [htakes.mem j]
        by_cases hj : j = m.heap.item 0
        · subst hj
          simp [isEmpty_iff.mp hnil]
        · simp [h.mem j, hj]
    · rename_i hne
      have hr := rearranges_fix
        (headKey key ⟨m.heap, update m.rest (m.heap.item 0) ys⟩) hpos
      refine ⟨hr.tracks h.tracks, ordered_fix hpos hloose, fun j => ?_⟩
      rw [hr.mem j]
      by_cases hj : j = m.heap.item 0
      · subst hj
        have hmem : m.heap.Mem (m.heap.item 0) := ⟨0, hpos, rfl⟩
        simpa [hmem] using hne
      · simp [update_of_ne hj, h.mem j]
  · rw [hrest, update_self, hys, hxy]
  · rw [hrest, update_self]
  · intro j hj
    obtain ⟨c, hc, rfl⟩ := (h.mem j).mpr hj
    have hle := h.ordered.root_le hc
    have hhead : m.headKey key (m.heap.item 0) = key x := by
      unfold headKey
      rw [hys, hxy]
      rfl
    rwa [hhead] at hle

theorem Kept.next_none (h : Kept key m) (hnext : m.next key = none) : ∀ i, m.rest i = [] := by
  intro i
  unfold Merge.next at hnext
  split at hnext
  · rename_i hlen
    by_contra hne
    obtain ⟨c, hc, -⟩ := (h.mem i).mpr hne
    omega
  · cases hnext

/-! ## What is given -/

omit [Inhabited α] in
theorem flatMap_update_perm {f : Nat → List α} (hi : f i = x :: xs) {l : List Nat}
    (hnodup : l.Nodup) (hmem : i ∈ l) :
    (l.flatMap f).Perm (x :: l.flatMap (Function.update f i xs)) := by
  induction l with
  | nil => cases hmem
  | cons j l ih =>
    obtain ⟨hj, hl⟩ := nodup_cons.mp hnodup
    rw [flatMap_cons, flatMap_cons]
    by_cases hij : j = i
    · subst hij
      have hsame : l.flatMap (Function.update f j xs) = l.flatMap f :=
        flatMap_congr fun k hk => update_of_ne (ne_of_mem_of_not_mem hk hj) _ _
      rw [hi, update_self, hsame]
      exact List.Perm.refl _
    · have hin : i ∈ l := (mem_cons.mp hmem).resolve_left (Ne.symm hij)
      rw [update_of_ne hij]
      exact ((ih hl hin).append_left (f j)).trans perm_middle

section

variable (h : Kept key m)
include h

theorem contents_next (hn : ∀ i, n ≤ i → m.rest i = [])
    (hnext : m.next key = some (x, m')) :
    (m.contents n).Perm (x :: m'.contents n) ∧ ∀ i, n ≤ i → m'.rest i = [] := by
  obtain ⟨-, i, hi, hrest, -⟩ := h.next hnext
  have hlt : i < n := by
    by_contra hge
    rw [hn i (Nat.le_of_not_lt hge)] at hi
    cases hi
  constructor
  · unfold contents
    rw [hrest]
    exact flatMap_update_perm hi nodup_range (mem_range.mpr hlt)
  · intro j hj
    rw [hrest, update_of_ne (by omega)]
    exact hn j hj

theorem contents_eq_nil (hnext : m.next key = none) : m.contents n = [] := by
  unfold contents
  rw [flatMap_eq_nil_iff]
  exact fun i _ => h.next_none hnext i

variable {fuel : Nat}

/-- Enough reads give everything. -/
theorem drain_perm (hn : ∀ i, n ≤ i → m.rest i = []) (hfuel : (m.contents n).length ≤ fuel) :
    (m.drain key fuel).Perm (m.contents n) := by
  induction fuel generalizing m with
  | zero =>
    rw [eq_nil_of_length_eq_zero (Nat.le_zero.mp hfuel)]
    exact .refl _
  | succ fuel ih =>
    rw [drain]
    cases hnext : m.next key with
    | none =>
      rw [contents_eq_nil h hnext]
    | some xm =>
      obtain ⟨x, m'⟩ := xm
      obtain ⟨hperm, hn'⟩ := contents_next h hn hnext
      have hlen := hperm.length_eq
      rw [length_cons] at hlen
      exact ((ih (h.next hnext).1 hn' (by omega)).cons x).trans hperm.symm

theorem drain_subset (hx : x ∈ m.drain key fuel) : ∃ i, x ∈ m.rest i := by
  induction fuel generalizing m with
  | zero => cases hx
  | succ fuel ih =>
    rw [drain] at hx
    cases hnext : m.next key with
    | none =>
      rw [hnext] at hx
      cases hx
    | some ym =>
      obtain ⟨y, m'⟩ := ym
      obtain ⟨hkept, i, hi, hrest, -⟩ := h.next hnext
      rw [hnext] at hx
      rcases mem_cons.mp hx with rfl | hx
      · exact ⟨i, by rw [hi]; exact mem_cons_self⟩
      · obtain ⟨j, hj⟩ := ih hkept hx
        by_cases hji : j = i
        · subst hji
          exact ⟨j, by rw [hi]; exact mem_cons_of_mem y hj⟩
        · rw [hrest, update_of_ne hji] at hj
          exact ⟨j, hj⟩

/-- Sorted streams are read in order. -/
theorem drain_sorted (hsorted : ∀ i, (m.rest i).Pairwise fun a b => key a ≤ key b) :
    (m.drain key fuel).Pairwise fun a b => key a ≤ key b := by
  induction fuel generalizing m with
  | zero => exact .nil
  | succ fuel ih =>
    rw [drain]
    cases hnext : m.next key with
    | none => exact .nil
    | some xm =>
      obtain ⟨x, m'⟩ := xm
      obtain ⟨hkept, i, hi, hrest, hleast⟩ := h.next hnext
      have hsub (j : Nat) : (m'.rest j).Sublist (m.rest j) := by
        by_cases hji : j = i
        · subst hji
          rw [hi]
          exact sublist_cons_self x _
        · rw [hrest, update_of_ne hji]
      refine pairwise_cons.mpr ⟨fun y hy => ?_, ih hkept fun j => (hsorted j).sublist (hsub j)⟩
      -- what is read later was behind the head of some stream, or is one
      obtain ⟨j, hj⟩ := drain_subset hkept hy
      have hyj : y ∈ m.rest j := (hsub j).subset hj
      obtain ⟨z, zs, hzs⟩ := exists_cons_of_ne_nil (ne_nil_of_mem hyj)
      have hxz : key x ≤ key z := by
        have hle := hleast j (ne_nil_of_mem hyj)
        unfold headKey at hle
        rwa [hzs] at hle
      have hz := hsorted j
      rw [hzs] at hz hyj
      rcases mem_cons.mp hyj with rfl | hy
      · exact hxz
      · exact hxz.trans ((pairwise_cons.mp hz).1 y hy)

end

theorem rest_add : (m.add key i xs).rest = update m.rest i xs := by
  unfold add
  split <;> rfl

/-- The streams that are added one after the other. -/
theorem Kept.addAll (h : Kept key m) (hi : ∀ j, i ≤ j → m.rest j = []) :
    Kept key (addAll key m i xss) ∧
      (addAll key m i xss).contents (i + xss.length) = m.contents i ++ xss.flatten ∧
      (∀ j, i + xss.length ≤ j → (addAll key m i xss).rest j = []) ∧
      ∀ j, (addAll key m i xss).rest j = m.rest j ∨ (addAll key m i xss).rest j ∈ xss := by
  induction xss generalizing m i with
  | nil => exact ⟨h, (append_nil _).symm, hi, fun _ => .inl rfl⟩
  | cons xs xss ih =>
    have hnew (j : Nat) (hj : i + 1 ≤ j) : (m.add key i xs).rest j = [] := by
      rw [rest_add, update_of_ne (by omega)]
      exact hi j (by omega)
    have hcontents : (m.add key i xs).contents (i + 1) = m.contents i ++ xs := by
      have hsame : (range i).flatMap (update m.rest i xs) =
          (range i).flatMap m.rest := by
        refine flatMap_congr fun j hj => ?_
        rw [update_of_ne (mem_range.mp hj).ne]
      unfold contents
      rw [rest_add, range_succ, flatMap_append, hsame]
      simp
    obtain ⟨hkept, hall, hout, hrest⟩ := ih (h.add (hi i (le_refl i))) hnew
    have hlen : i + (xs :: xss).length = i + 1 + xss.length := by
      rw [length_cons]
      omega
    refine ⟨hkept, ?_, ?_, fun j => ?_⟩
    · rw [hlen, flatten_cons, ← append_assoc, ← hcontents]
      exact hall
    · rw [hlen]
      exact hout
    · rcases hrest j with hj | hj
      · rw [rest_add] at hj
        by_cases hji : j = i
        · right
          rw [addAll, hj, hji, update_self]
          exact mem_cons_self
        · left
          rw [addAll, hj, update_of_ne hji]
      · exact .inr (mem_cons_of_mem xs hj)

theorem merge_perm (key : α → κ) (xss : List (List α)) : (merge key xss).Perm xss.flatten := by
  obtain ⟨hkept, hall, hout, -⟩ := (kept_empty : Kept key (empty : Merge α)).addAll
    (fun _ _ => rfl)
  have hflat : (addAll key empty 0 xss).contents (0 + xss.length) = xss.flatten := hall
  have hperm : (merge key xss).Perm ((addAll key empty 0 xss).contents (0 + xss.length)) :=
    drain_perm hkept hout (by rw [hflat])
  rwa [hflat] at hperm

theorem merge_sorted
    (hsorted : ∀ xs ∈ xss, xs.Pairwise fun a b => key a ≤ key b) :
    (merge key xss).Pairwise fun a b => key a ≤ key b := by
  obtain ⟨hkept, -, -, hrest⟩ := (kept_empty : Kept key (empty : Merge α)).addAll
    (fun _ _ => rfl)
  refine drain_sorted hkept fun j => ?_
  rcases hrest j with hj | hj
  · rw [hj]
    exact .nil
  · exact hsorted _ hj

end Merge

end Dep2p.Lib
