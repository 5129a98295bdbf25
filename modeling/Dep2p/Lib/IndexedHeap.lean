import Mathlib.Order.Lattice
import Mathlib.Tactic.Common

/- A binary heap in a slice whose elements know their position.

   The operations are those of Go's `container/heap` over an implementation that
   writes the position of an element into the element at every `Swap`, `Push` and
   `Pop`; `-1` is the position of what is not in the heap. A slice is its length with
   its backing array, and `key` is what `Less` compares.

   What is proved:
     1. `Tracks` — every element of the heap is where its index says, and nothing
        else has an index: kept by every operation.
     2. `Mem` — which elements an operation adds or takes away.
     3. `Ordered` — no element is before its parent: kept by `push`, restored by
        `fix` after one key has changed, and by `remove` at the element that
        changed. -/
namespace Dep2p.Lib

open Function

/-- A slice of `len` elements and the position each element believes it has. -/
structure IndexedHeap (α : Type) where
  len : Nat
  item : Nat → α
  index : α → Int

namespace IndexedHeap

variable {α κ : Type} [LinearOrder κ]

def empty [Inhabited α] : IndexedHeap α := { len := 0, item := fun _ => default, index := fun _ => -1 }

def parent (j : Nat) : Nat := (j - 1) / 2

theorem parent_lt {j : Nat} (h : 0 < j) : parent j < j := by
  unfold parent
  omega

/-- The child of `i` that `down` compares with it. -/
def child (key : α → κ) (h : IndexedHeap α) (i n : Nat) : Nat :=
  if 2 * i + 2 < n ∧ key (h.item (2 * i + 2)) < key (h.item (2 * i + 1)) then 2 * i + 2
  else 2 * i + 1

theorem child_eq (key : α → κ) (h : IndexedHeap α) (i n : Nat) :
    h.child key i n = 2 * i + 1 ∨ h.child key i n = 2 * i + 2 ∧ 2 * i + 2 < n := by
  unfold child
  split
  · rename_i hc
    exact .inr ⟨rfl, hc.1⟩
  · exact .inl rfl

/-! ## Positions and members -/

def Mem (h : IndexedHeap α) (x : α) : Prop := ∃ i, i < h.len ∧ h.item i = x

structure Tracks (h : IndexedHeap α) : Prop where
  position : ∀ i, i < h.len → h.index (h.item i) = i
  outside : ∀ x, h.index x = -1 ∨ h.Mem x

variable {h h' h'' : IndexedHeap α} {key : α → κ} {i j n : Nat} {x : α}

theorem Tracks.inj (t : h.Tracks) (hi : i < h.len) (hj : j < h.len) (e : h.item i = h.item j) :
    i = j := by
  have hpi := t.position i hi
  have hpj := t.position j hj
  rw [e, hpj] at hpi
  exact_mod_cast hpi.symm

theorem Tracks.mem_iff (t : h.Tracks) : h.Mem x ↔ h.index x ≠ -1 := by
  constructor
  · intro hm
    obtain ⟨i, hi, rfl⟩ := hm
    rw [t.position i hi]
    omega
  · intro hx
    exact (t.outside x).resolve_left hx

/-- An element of the heap is at the position of its index. -/
theorem Tracks.at_index (t : h.Tracks) (hx : h.index x ≠ -1) :
    (h.index x).toNat < h.len ∧ h.item (h.index x).toNat = x := by
  obtain ⟨i, hi, rfl⟩ := t.mem_iff.mpr hx
  rw [t.position i hi]
  exact ⟨hi, rfl⟩

@[simp] theorem tracks_empty [Inhabited α] : (empty : IndexedHeap α).Tracks where
  position i hi := absurd hi (i.not_lt_zero)
  outside _ := .inl rfl

/-- `h'` holds the elements of `h`, perhaps in another order. -/
structure Rearranges (h h' : IndexedHeap α) : Prop where
  len : h'.len = h.len
  mem : ∀ x, h'.Mem x ↔ h.Mem x
  tracks : h.Tracks → h'.Tracks

theorem Rearranges.refl (h : IndexedHeap α) : Rearranges h h := ⟨rfl, fun _ => .rfl, id⟩

theorem Rearranges.trans (a : Rearranges h h') (b : Rearranges h' h'') : Rearranges h h'' where
  len := b.len.trans a.len
  mem x := (b.mem x).trans (a.mem x)
  tracks t := b.tracks (a.tracks t)

/-! ## The order -/

/-- The element at `c` is not before its parent. -/
def Below (key : α → κ) (h : IndexedHeap α) (c : Nat) : Prop :=
  key (h.item (parent c)) ≤ key (h.item c)

def Ordered (key : α → κ) (h : IndexedHeap α) (n : Nat) : Prop :=
  ∀ c, 0 < c → c < n → Below key h c

/-- The first `n` are in order but for the element at `i`: the pairs it is not part of
are, and so are its children with its parent. -/
structure Loose (key : α → κ) (h : IndexedHeap α) (n i : Nat) : Prop where
  off : ∀ c, 0 < c → c < n → c ≠ i → parent c ≠ i → Below key h c
  grand : 0 < i → ∀ c, 0 < c → c < n → parent c = i →
    key (h.item (parent i)) ≤ key (h.item c)

theorem Loose.ordered (o : Loose key h n i) (habove : 0 < i → Below key h i)
    (hbelow : ∀ c, 0 < c → c < n → parent c = i → Below key h c) : Ordered key h n := by
  intro c hc hcn
  by_cases hci : c = i
  · rw [hci] at hc ⊢
    exact habove hc
  by_cases hpc : parent c = i
  · exact hbelow c hc hcn hpc
  · exact o.off c hc hcn hci hpc

/-- One changed key leaves the order loose at its element. -/
theorem Ordered.loose {key' : α → κ} (o : Ordered key h n) (hi : i < n)
    (hsame : ∀ c, c < n → c ≠ i → key' (h.item c) = key (h.item c)) : Loose key' h n i where
  off c hc hcn hci hpc := by
    have hp := parent_lt hc
    unfold Below
    rw [hsame c hcn hci, hsame (parent c) (by omega) hpc]
    exact o c hc hcn
  grand hi0 c hc hcn hpc := by
    have hp := parent_lt hc
    have hpi := parent_lt hi0
    rw [hsame c hcn (by omega), hsame (parent i) (by omega) (by omega)]
    have hupper := o i hi0 hi
    have hlower := o c hc hcn
    unfold Below at hupper hlower
    rw [hpc] at hlower
    exact hupper.trans hlower

theorem Ordered.of_item (o : Ordered key h n) {m : Nat} (hm : m ≤ n)
    (hitem : ∀ c, c < m → h'.item c = h.item c) : Ordered key h' m := by
  intro c hc hcm
  have hp := parent_lt hc
  unfold Below
  rw [hitem c hcm, hitem (parent c) (by omega)]
  exact o c hc (by omega)

/-- The root is the least. -/
theorem Ordered.root_le (o : Ordered key h n) (hi : i < n) : key (h.item 0) ≤ key (h.item i) := by
  induction i using Nat.strongRecOn with
  | ind i ih =>
    rcases i.eq_zero_or_pos with rfl | hpos
    · exact le_refl _
    · have hp := parent_lt hpos
      exact (ih (parent i) hp (by omega)).trans (o i hpos hi)

theorem parent_child (key : α → κ) (h : IndexedHeap α) (i n : Nat) :
    0 < h.child key i n ∧ parent (h.child key i n) = i := by
  unfold parent
  rcases child_eq key h i n with hc | hc <;> omega

/-- `down` compares with the least child. -/
theorem child_le {c : Nat} (hc : 0 < c) (hcn : c < n)
    (hpc : parent c = i) : key (h.item (h.child key i n)) ≤ key (h.item c) := by
  have hcs : c = 2 * i + 1 ∨ c = 2 * i + 2 := by
    unfold parent at hpc
    omega
  unfold child
  split
  · rename_i hright
    rcases hcs with rfl | rfl
    · exact hright.2.le
    · exact le_refl _
  · rename_i hleft
    rcases hcs with rfl | rfl
    · exact le_refl _
    · exact not_lt.mp fun hlt => hleft ⟨hcn, hlt⟩

/-- Where `down` stops, the children are below. -/
theorem below_of_stop (hstop : ¬ (2 * i + 1 < n ∧ key (h.item (h.child key i n)) < key (h.item i))) :
    ∀ c, 0 < c → c < n → parent c = i → Below key h c := by
  intro c hc hcn hpc
  have hn : 2 * i + 1 < n := by
    unfold parent at hpc
    omega
  have hle : key (h.item i) ≤ key (h.item (h.child key i n)) := not_lt.mp fun hlt => hstop ⟨hn, hlt⟩
  unfold Below
  rw [hpc]
  exact hle.trans (child_le hc hcn hpc)

/-! ## The operations -/

variable [DecidableEq α]

def swap (h : IndexedHeap α) (i j : Nat) : IndexedHeap α :=
  { h with
    item := fun k => if k = i then h.item j else if k = j then h.item i else h.item k
    index := Function.update (Function.update h.index (h.item j) i) (h.item i) j }

def up (key : α → κ) (h : IndexedHeap α) (j : Nat) : IndexedHeap α :=
  if _hj : parent j = j ∨ ¬ key (h.item j) < key (h.item (parent j)) then h
  else (h.swap (parent j) j).up key (parent j)
termination_by j
decreasing_by
  unfold parent at _hj ⊢
  omega

/-- Sift the element at `i` down within the first `n`; with the heap, where it ends. -/
def down (key : α → κ) (h : IndexedHeap α) (i n : Nat) : IndexedHeap α × Nat :=
  if 2 * i + 1 < n ∧ key (h.item (h.child key i n)) < key (h.item i) then
    (h.swap i (h.child key i n)).down key (h.child key i n) n
  else (h, i)
termination_by n - i
decreasing_by
  rcases child_eq key h i n with hc | hc <;> omega

/-- `if !down(h, i, n) { up(h, i) }`. -/
def settle (key : α → κ) (h : IndexedHeap α) (i n : Nat) : IndexedHeap α :=
  let d := h.down key i n
  if i < d.2 then d.1 else d.1.up key i

/-- The `Push` of the interface. -/
def append (h : IndexedHeap α) (x : α) : IndexedHeap α :=
  { len := h.len + 1
    item := Function.update h.item h.len x
    index := Function.update h.index x h.len }

/-- The `Pop` of the interface. -/
def dropLast (h : IndexedHeap α) : IndexedHeap α :=
  { h with len := h.len - 1, index := Function.update h.index (h.item (h.len - 1)) (-1) }

def push (key : α → κ) (h : IndexedHeap α) (x : α) : IndexedHeap α :=
  (h.append x).up key h.len

/-- The element taken, and the heap without it. -/
def pop (key : α → κ) (h : IndexedHeap α) : α × IndexedHeap α :=
  let d := ((h.swap 0 (h.len - 1)).down key 0 (h.len - 1)).1
  (d.item (d.len - 1), d.dropLast)

def remove (key : α → κ) (h : IndexedHeap α) (i : Nat) : IndexedHeap α :=
  if h.len - 1 ≠ i then ((h.swap i (h.len - 1)).settle key i (h.len - 1)).dropLast
  else h.dropLast

def fix (key : α → κ) (h : IndexedHeap α) (i : Nat) : IndexedHeap α := h.settle key i h.len

/-! ## What the operations hold -/

@[simp] theorem swap_len : (h.swap i j).len = h.len := rfl

@[simp] theorem swap_item_left : (h.swap i j).item i = h.item j := if_pos rfl

@[simp] theorem swap_item_right : (h.swap i j).item j = h.item i := by
  by_cases e : j = i
  · simp [e]
  · simp [swap, e]

variable {k : Nat}

theorem swap_item_off (hi : k ≠ i) (hj : k ≠ j) : (h.swap i j).item k = h.item k := by
  simp [swap, hi, hj]

theorem swap_tracks (t : h.Tracks) (hi : i < h.len) (hj : j < h.len) : (h.swap i j).Tracks where
  position k hk := by
    by_cases hkj : k = j
    · rw [hkj, swap_item_right]
      exact update_self ..
    by_cases hki : k = i
    · -- what is at `i` now was at `j`, and is not what is at `j` now
      subst hki
      have hne : h.item j ≠ h.item k := fun e => hkj (t.inj hj hi e).symm
      simp [swap, hne]
    · rw [swap_item_off hki hkj]
      have hne₁ : h.item k ≠ h.item i := fun e => hki (t.inj hk hi e)
      have hne₂ : h.item k ≠ h.item j := fun e => hkj (t.inj hk hj e)
      simp only [swap, update_of_ne hne₁, update_of_ne hne₂]
      exact t.position k hk
  outside x := by
    by_cases hxi : h.item i = x
    · exact .inr ⟨j, hj, by rw [swap_item_right, hxi]⟩
    by_cases hxj : h.item j = x
    · exact .inr ⟨i, hi, by rw [swap_item_left, hxj]⟩
    rcases t.outside x with hx | hx
    · left
      simp only [swap]
      rw [update_of_ne (symm hxi), update_of_ne (symm hxj)]
      exact hx
    · obtain ⟨k, hk, hkx⟩ := hx
      refine .inr ⟨k, hk, ?_⟩
      have hki : k ≠ i := fun e => hxi (by rw [← e, hkx])
      have hkj : k ≠ j := fun e => hxj (by rw [← e, hkx])
      rw [swap_item_off hki hkj, hkx]

theorem mem_swap (hi : i < h.len) (hj : j < h.len) : (h.swap i j).Mem x ↔ h.Mem x := by
  -- the swap is its own inverse on positions
  have hto : ∀ k, (h.swap i j).item k = h.item (if k = i then j else if k = j then i else k) := by
    intro k
    simp only [swap]
    split
    · rfl
    split <;> rfl
  constructor
  · intro hm
    obtain ⟨k, hk, hx⟩ := hm
    refine ⟨_, ?_, (hto k).symm.trans hx⟩
    split
    · exact hj
    split
    · exact hi
    · exact hk
  · intro hm
    obtain ⟨k, hk, hx⟩ := hm
    by_cases hki : k = i
    · exact ⟨j, hj, by rw [swap_item_right, ← hki, hx]⟩
    by_cases hkj : k = j
    · exact ⟨i, hi, by rw [swap_item_left, ← hkj, hx]⟩
    · exact ⟨k, hk, by rw [swap_item_off hki hkj, hx]⟩

theorem rearranges_swap (hi : i < h.len) (hj : j < h.len) : Rearranges h (h.swap i j) where
  len := rfl
  mem _ := mem_swap hi hj
  tracks t := swap_tracks t hi hj

theorem rearranges_up (hj : j < h.len) :
    Rearranges h (h.up key j) := by
  fun_induction up key h j with
  | case1 h j _ => exact .refl h
  | case2 h j hstep ih =>
    have hp : parent j < h.len := by
      unfold parent
      omega
    exact (rearranges_swap hp hj).trans (ih hp)

theorem rearranges_down (key : α → κ) (h : IndexedHeap α) (i n : Nat) (hi : i < h.len)
    (hn : n ≤ h.len) : Rearranges h (h.down key i n).1 := by
  fun_induction down key h i n with
  | case1 h i hstep ih =>
    have hc : h.child key i n < h.len := by
      rcases child_eq key h i n with hc | hc <;> omega
    exact (rearranges_swap hi hc).trans (ih hc hn)
  | case2 h i _ => exact .refl h

/-- `down` leaves the slice from `n` on alone. -/
theorem down_item_off (hi : i < n) (hk : n ≤ k) :
    (h.down key i n).1.item k = h.item k := by
  fun_induction down key h i n with
  | case1 h i hstep ih =>
    have hc : h.child key i n < n := by
      rcases child_eq key h i n with hc | hc <;> omega
    rw [ih hc, swap_item_off (by omega) (by omega)]
  | case2 h i _ => rfl

theorem up_item_off (hk : j < k) :
    (h.up key j).item k = h.item k := by
  fun_induction up key h j with
  | case1 h j _ => rfl
  | case2 h j hstep ih =>
    have hp : parent j ≤ j := by
      unfold parent
      omega
    rw [ih (by omega), swap_item_off (by omega) (by omega)]

theorem rearranges_settle (hi : i < h.len) (hn : n ≤ h.len) :
    Rearranges h (h.settle key i n) := by
  have hd := rearranges_down key h i n hi hn
  simp only [settle]
  split
  · exact hd
  · exact hd.trans (rearranges_up (by rw [hd.len]; exact hi))

theorem settle_item_off (hi : i < n) (hk : n ≤ k) :
    (h.settle key i n).item k = h.item k := by
  simp only [settle]
  split
  · exact down_item_off hi hk
  · rw [up_item_off (by omega), down_item_off hi hk]

theorem Tracks.append (t : h.Tracks) (hx : h.index x = -1) : (h.append x).Tracks where
  position k hk := by
    have hk' : k < h.len + 1 := hk
    by_cases e : k = h.len
    · simp [IndexedHeap.append, e]
    · have hlt : k < h.len := by omega
      have hne : h.item k ≠ x := by
        intro hkx
        have hpos := t.position k hlt
        rw [hkx] at hpos
        omega
      simp only [IndexedHeap.append, update_of_ne e, update_of_ne hne]
      exact t.position k hlt
  outside y := by
    by_cases e : y = x
    · exact .inr ⟨h.len, Nat.lt_succ_self _, by simp [IndexedHeap.append, e]⟩
    · rcases t.outside y with hy | hy
      · left
        simp only [IndexedHeap.append, update_of_ne e]
        exact hy
      · obtain ⟨k, hk, hky⟩ := hy
        refine .inr ⟨k, Nat.lt_succ_of_lt hk, ?_⟩
        simp only [IndexedHeap.append, update_of_ne (Nat.ne_of_lt hk)]
        exact hky

theorem mem_append {y : α} : (h.append x).Mem y ↔ y = x ∨ h.Mem y := by
  constructor
  · intro hm
    obtain ⟨k, hk, hky⟩ := hm
    have hk' : k < h.len + 1 := hk
    by_cases e : k = h.len
    · left
      rw [← hky, e]
      exact update_self ..
    · right
      refine ⟨k, by omega, ?_⟩
      rw [← hky]
      exact (update_of_ne e ..).symm
  · intro hm
    rcases hm with rfl | ⟨k, hk, hky⟩
    · exact ⟨h.len, Nat.lt_succ_self _, update_self ..⟩
    · refine ⟨k, Nat.lt_succ_of_lt hk, ?_⟩
      rw [← hky]
      exact update_of_ne (Nat.ne_of_lt hk) ..

theorem Tracks.mem_dropLast (t : h.Tracks) (hlen : 0 < h.len) {y : α} :
    h.dropLast.Mem y ↔ y ≠ h.item (h.len - 1) ∧ h.Mem y := by
  constructor
  · intro hm
    obtain ⟨k, hk, hky⟩ := hm
    have hk' : k < h.len - 1 := hk
    have hky' : h.item k = y := hky
    refine ⟨?_, k, by omega, hky'⟩
    intro e
    have := t.inj (by omega) (by omega) (hky'.trans e)
    omega
  · intro hm
    obtain ⟨hne, k, hk, hky⟩ := hm
    have hklast : k ≠ h.len - 1 := fun e => hne (by rw [← hky, e])
    exact ⟨k, show k < h.len - 1 by omega, hky⟩

theorem Tracks.dropLast (t : h.Tracks) (hlen : 0 < h.len) : h.dropLast.Tracks where
  position k hk := by
    have hk' : k < h.len - 1 := hk
    have hne : h.item k ≠ h.item (h.len - 1) := by
      intro e
      have := t.inj (by omega) (by omega) e
      omega
    simp only [IndexedHeap.dropLast, update_of_ne hne]
    exact t.position k (by omega)
  outside y := by
    by_cases e : y = h.item (h.len - 1)
    · left
      simp [IndexedHeap.dropLast, e]
    · rcases t.outside y with hy | hy
      · left
        simp only [IndexedHeap.dropLast, update_of_ne e]
        exact hy
      · exact .inr ((t.mem_dropLast hlen).mpr ⟨e, hy⟩)

/-- An operation that leaves `x` out and every other element in. -/
structure Takes (h h' : IndexedHeap α) (x : α) : Prop where
  len : h'.len = h.len - 1
  mem : ∀ y, h'.Mem y ↔ y ≠ x ∧ h.Mem y
  tracks : h'.Tracks

/-- Bringing `x` to the end and dropping the end takes `x`. -/
theorem takes_dropLast (t : h.Tracks) (hlen : 0 < h.len) (r : Rearranges h h')
    (hlast : h'.item (h.len - 1) = x) : Takes h h'.dropLast x := by
  have hlen' : 0 < h'.len := by
    rw [r.len]
    exact hlen
  refine ⟨?_, ?_, (r.tracks t).dropLast hlen'⟩
  · simp [dropLast, r.len]
  · intro y
    rw [(r.tracks t).mem_dropLast hlen', r.len, hlast, r.mem y]

section

variable (key : α → κ)

theorem takes_remove (t : h.Tracks) (hi : i < h.len) :
    Takes h (h.remove key i) (h.item i) := by
  have hlen : 0 < h.len := by omega
  unfold remove
  split
  · rename_i hne
    have hlast : h.len - 1 < h.len := by omega
    have hr : Rearranges h ((h.swap i (h.len - 1)).settle key i (h.len - 1)) :=
      (rearranges_swap hi hlast).trans
        (rearranges_settle (by rw [swap_len]; exact hi) (by rw [swap_len]; omega))
    refine takes_dropLast t hlen hr ?_
    rw [settle_item_off (by omega) (Nat.le_refl _), swap_item_right]
  · rename_i heq
    have heq : h.len - 1 = i := not_not.mp heq
    exact takes_dropLast t hlen (.refl h) (by rw [heq])

theorem takes_pop (t : h.Tracks) (hlen : 0 < h.len) :
    (h.pop key).1 = h.item 0 ∧ Takes h (h.pop key).2 (h.item 0) := by
  have hlast : h.len - 1 < h.len := by omega
  have hr : Rearranges h ((h.swap 0 (h.len - 1)).down key 0 (h.len - 1)).1 :=
    (rearranges_swap hlen hlast).trans
      (rearranges_down key _ 0 _ (by rw [swap_len]; exact hlen) (by rw [swap_len]; omega))
  have hitem : ((h.swap 0 (h.len - 1)).down key 0 (h.len - 1)).1.item (h.len - 1) = h.item 0 := by
    by_cases h0 : 0 < h.len - 1
    · rw [down_item_off h0 (Nat.le_refl _), swap_item_right]
    · -- a heap of one element: the loop of `down` does nothing
      have hone : h.len - 1 = 0 := by omega
      rw [hone, down]
      exact swap_item_right
  refine ⟨?_, takes_dropLast t hlen hr hitem⟩
  simp only [pop]
  rw [hr.len, hitem]

theorem len_down : (h.down key i n).1.len = h.len := by
  fun_induction down key h i n with
  | case1 h i hstep ih => exact ih
  | case2 h i _ => rfl

theorem len_pop (h : IndexedHeap α) : (h.pop key).2.len = h.len - 1 := by
  simp [pop, dropLast, len_down, swap_len]

theorem len_up : (h.up key j).len = h.len := by
  fun_induction up key h j with
  | case1 h j _ => rfl
  | case2 h j _ ih => exact ih

theorem len_settle :
    (h.settle key i n).len = h.len := by
  unfold settle
  dsimp only
  split
  · exact len_down key
  · rw [len_up, len_down]

theorem len_remove :
    (h.remove key i).len = h.len - 1 := by
  unfold remove
  split
  · simp [dropLast, len_settle, swap_len]
  · rfl

end

/-- An operation that adds `x`. -/
structure Adds (h h' : IndexedHeap α) (x : α) : Prop where
  len : h'.len = h.len + 1
  mem : ∀ y, h'.Mem y ↔ y = x ∨ h.Mem y
  tracks : h'.Tracks

theorem adds_push (key : α → κ) (t : h.Tracks) (hx : h.index x = -1) : Adds h (h.push key x) x := by
  have hr : Rearranges (h.append x) (h.push key x) :=
    rearranges_up (h.len.lt_succ_self)
  refine ⟨hr.len, ?_, hr.tracks (t.append hx)⟩
  intro y
  rw [hr.mem y, mem_append]

theorem rearranges_fix (key : α → κ) (hi : i < h.len) : Rearranges h (h.fix key i) :=
  rearranges_settle hi (Nat.le_refl _)

/-! ## What the operations do to the order -/

theorem ordered_up (hj : j < n)
    (o : Loose key h n j) (hbelow : ∀ c, 0 < c → c < n → parent c = j → Below key h c) :
    Ordered key (h.up key j) n := by
  fun_induction up key h j with
  | case1 h j hstop =>
    refine o.ordered ?_ hbelow
    intro hj0
    rcases hstop with hroot | hle
    · exact absurd hroot (Nat.ne_of_lt (parent_lt hj0))
    · exact not_lt.mp hle
  | case2 h j hstep ih =>
    rw [not_or, not_not] at hstep
    obtain ⟨hne, hlt⟩ := hstep
    have hj0 : 0 < j := by
      rcases j.eq_zero_or_pos with rfl | hpos
      · exact absurd rfl hne
      · exact hpos
    have hp := parent_lt hj0
    -- the old parent is below its own parent, and the other child of it below it
    have hparent : 0 < parent j → key (h.item (parent (parent j))) ≤ key (h.item (parent j)) := by
      intro hp0
      have := parent_lt hp0
      exact o.off (parent j) hp0 (by omega) (by omega) (by omega)
    have hsibling : ∀ c, 0 < c → c < n → c ≠ j → parent c = parent j →
        key (h.item (parent j)) ≤ key (h.item c) := by
      intro c hc hcn hcj hpc
      have hoff := o.off c hc hcn hcj (by omega)
      unfold Below at hoff
      rw [hpc] at hoff
      exact hoff
    apply ih (by omega)
    · constructor
      · intro c hc hcn hcp hpc
        have hcj : c ≠ j := fun e => hpc (by rw [e])
        unfold Below
        rw [swap_item_off hcp hcj]
        by_cases hpj : parent c = j
        · rw [hpj, swap_item_right]
          exact o.grand hj0 c hc hcn hpj
        · rw [swap_item_off hpc hpj]
          exact o.off c hc hcn hcj hpj
      · intro hp0 c hc hcn hpc
        have hpp := parent_lt hp0
        have hcp := parent_lt hc
        rw [swap_item_off (by omega) (by omega)]
        by_cases hcj : c = j
        · rw [hcj, swap_item_right]
          exact hparent hp0
        · rw [swap_item_off (by omega) hcj]
          exact (hparent hp0).trans (hsibling c hc hcn hcj hpc)
    · intro c hc hcn hpc
      have hcp := parent_lt hc
      unfold Below
      rw [hpc, swap_item_left]
      by_cases hcj : c = j
      · rw [hcj, swap_item_right]
        exact hlt.le
      · rw [swap_item_off (by omega) hcj]
        exact hlt.le.trans (hsibling c hc hcn hcj hpc)

/-- A step of `down` leaves the order loose at the child it exchanged, which now is
below its parent. -/
theorem Loose.descend (o : Loose key h n i) (hn : 2 * i + 1 < n)
    (hlt : key (h.item (h.child key i n)) < key (h.item i)) :
    Loose key (h.swap i (h.child key i n)) n (h.child key i n) ∧
      Below key (h.swap i (h.child key i n)) (h.child key i n) := by
  obtain ⟨hj0, hpj⟩ := parent_child key h i n
  have hle : ∀ c, 0 < c → c < n → parent c = i → key (h.item (h.child key i n)) ≤ key (h.item c) :=
    fun c hc hcn hpc => child_le hc hcn hpc
  have hjn : h.child key i n < n := by
    rcases child_eq key h i n with hc | hc <;> omega
  generalize h.child key i n = j at *
  have hij := parent_lt hj0
  refine ⟨⟨?_, ?_⟩, ?_⟩
  · intro c hc hcn hcj hpc
    have hcp := parent_lt hc
    unfold Below
    by_cases hci : c = i
    · subst hci
      rw [swap_item_left, swap_item_off (by omega) (by omega)]
      exact o.grand hc j hj0 hjn hpj
    rw [swap_item_off hci hcj]
    by_cases hpi : parent c = i
    · rw [hpi, swap_item_left]
      exact hle c hc hcn hpi
    · rw [swap_item_off hpi hpc]
      exact o.off c hc hcn hci hpi
  · intro _ c hc hcn hpc
    have hcp := parent_lt hc
    rw [hpj, swap_item_left, swap_item_off (by omega) (by omega)]
    have hoff := o.off c hc hcn (by omega) (by omega)
    unfold Below at hoff
    rw [hpc] at hoff
    exact hoff
  · unfold Below
    rw [hpj, swap_item_left, swap_item_right]
    exact hlt.le

theorem ordered_down (o : Loose key h n i)
    (habove : 0 < i → Below key h i) : Ordered key (h.down key i n).1 n := by
  fun_induction down key h i n with
  | case1 h i hstep ih =>
    obtain ⟨ho, hb⟩ := o.descend hstep.1 hstep.2
    exact ih ho fun _ => hb
  | case2 h i hstop => exact o.ordered habove (below_of_stop hstop)

theorem down_position_le (key : α → κ) (h : IndexedHeap α) (i n : Nat) :
    i ≤ (h.down key i n).2 := by
  fun_induction down key h i n with
  | case1 h i hstep ih =>
    rcases child_eq key h i n with hc | hc <;> omega
  | case2 h i _ => exact Nat.le_refl _

theorem ordered_settle (hi : i < n) (o : Loose key h n i) : Ordered key (h.settle key i n) n := by
  simp only [settle]
  rw [down]
  split
  · -- the element moved down: a child of it stands at `i`, and is below its parent
    rename_i hstep
    obtain ⟨ho, hb⟩ := o.descend hstep.1 hstep.2
    have hpos := down_position_le key (h.swap i (h.child key i n)) (h.child key i n) n
    have hgt : i < h.child key i n := by
      rcases child_eq key h i n with hc | hc <;> omega
    rw [if_pos (by omega)]
    exact ordered_down ho fun _ => hb
  · rename_i hstop
    rw [if_neg (i.lt_irrefl)]
    exact ordered_up hi o (below_of_stop hstop)

theorem ordered_fix (hi : i < h.len) (o : Loose key h h.len i) :
    Ordered key (h.fix key i) (h.fix key i).len := by
  rw [(rearranges_fix key hi).len]
  exact ordered_settle hi o

theorem Ordered.push (o : Ordered key h h.len) (x : α) :
    Ordered key (h.push key x) (h.push key x).len := by
  have hr : Rearranges (h.append x) (h.push key x) :=
    rearranges_up (h.len.lt_succ_self)
  rw [hr.len]
  apply ordered_up (Nat.lt_succ_self _)
  · constructor
    · intro c hc hcn hcl hpl
      have hold := o c hc (by omega)
      unfold Below at hold ⊢
      simp only [append, update_of_ne hcl, update_of_ne hpl]
      exact hold
    · intro _ c hc hcn hpc
      have := parent_lt hc
      omega
  · intro c hc hcn hpc
    have := parent_lt hc
    omega

/-- Removing the element the order is loose at restores it. -/
theorem Loose.remove (o : Loose key h h.len i) (hi : i < h.len) :
    Ordered key (h.remove key i) (h.len - 1) := by
  unfold IndexedHeap.remove
  split
  · rename_i hne
    have hlt : i < h.len - 1 := by omega
    have hsame : ∀ c, c < h.len - 1 → c ≠ i → (h.swap i (h.len - 1)).item c = h.item c :=
      fun c hc hci => swap_item_off hci (by omega)
    have o' : Loose key (h.swap i (h.len - 1)) (h.len - 1) i := by
      constructor
      · intro c hc hcn hci hpc
        have hp := parent_lt hc
        unfold Below
        rw [hsame c hcn hci, hsame (parent c) (by omega) hpc]
        exact o.off c hc (by omega) hci hpc
      · intro hi0 c hc hcn hpc
        have hp := parent_lt hc
        have hpi := parent_lt hi0
        rw [hsame c hcn (by omega), hsame (parent i) (by omega) (by omega)]
        exact o.grand hi0 c hc (by omega) hpc
    exact (ordered_settle hlt o').of_item (Nat.le_refl _) fun _ _ => rfl
  · rename_i heq
    intro c hc hcn
    have hp := parent_lt hc
    exact o.off c hc (by omega) (by omega) (by omega)

theorem Ordered.pop (o : Ordered key h h.len) (hlen : 0 < h.len) :
    Ordered key (h.pop key).2 (h.len - 1) := by
  have o' : Loose key (h.swap 0 (h.len - 1)) (h.len - 1) 0 := by
    constructor
    · intro c hc hcn hc0 hpc
      have hp := parent_lt hc
      unfold Below
      rw [swap_item_off hc0 (by omega), swap_item_off hpc (by omega)]
      exact o c hc (by omega)
    · intro h0
      exact absurd h0 (Nat.lt_irrefl 0)
  have hdown := ordered_down o' fun h0 => absurd h0 (Nat.lt_irrefl 0)
  exact hdown.of_item (Nat.le_refl _) fun _ _ => rfl

end IndexedHeap

end Dep2p.Lib
