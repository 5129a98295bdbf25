import Mathlib.Data.List.Basic

/- The receive buffer of a yamux stream (`segmentedBuffer`, `util.go`).

   The buffer keeps the segments in the order they were appended, with a position
   in the list of segments and one inside the segment that is being read. The two
   counters `cap` and `len` are `uint32` in the source and are numbers with the
   wrapping operations `add32` and `sub32` here. The list of segments is a Go
   slice: what `Append` does when it is full depends on its capacity, which is a
   field, and the capacity that Go's `append` chooses is an argument.

   What is proved:
     1. `growTo_spec` — growing takes the window `cap + len` to the maximum and
        reports exactly by how much, or changes nothing and reports zero.
     2. `read_spec`, `store_spec` — reading takes bytes off the front of what the
        buffer holds, appending puts them at the end, whatever the segments are
        and whenever the slice is compacted.
   Both under `Wf`, which each operation keeps.
     3. `segmentedBuffer_fifo` — after any calls, what was read are the first bytes that were
        appended, and the buffer holds the others.

   Correspondence (Go ↔ Lean):
     `segmentedBuffer.GrowTo`, `Read`, `checkOverflow` ↔ `growTo`, `read`, `checkOverflow`
     `Append`, its part under the lock                 ↔ `append`, `store`
     `s.b[i] = nil`                                    ↔ an empty segment -/
namespace Dep2p.Yamux

open List

/-- `uint32` addition. -/
def add32 (a b : Nat) : Nat := (a + b) % 4294967296

/-- `uint32` subtraction, of a `uint32` and any number converted to one. -/
def sub32 (a b : Nat) : Nat :=
  let b := b % 4294967296
  if b ≤ a then a - b else a + 4294967296 - b

theorem add32_of_lt {a b : Nat} (h : a + b < 4294967296) : add32 a b = a + b := by
  exact Nat.mod_eq_of_lt h

theorem sub32_of_le {a b : Nat} (ha : a < 4294967296) (h : b ≤ a) : sub32 a b = a - b := by
  have hb : b % 4294967296 = b := Nat.mod_eq_of_lt (by omega)
  simp [sub32, hb, if_pos h]

structure SegmentedBuffer where
  cap : Nat
  len : Nat := 0
  /-- The read position in `b[bPos]`. -/
  readPos : Nat := 0
  bPos : Nat := 0
  b : List (List UInt8) := []
  /-- The capacity of the slice `b`. -/
  bCap : Nat := 16
  deriving DecidableEq, Repr

/-- The error of `checkOverflow`: what was left of the window, and what came. -/
structure WindowExceeded where
  remain : Nat
  recv : Nat
  deriving DecidableEq, Repr

namespace SegmentedBuffer

def new (initialCapacity : Nat) : SegmentedBuffer := { cap := initialCapacity }

/-- Grow to `max` when half of it is to be gained, or when forced; with whether
an update is needed, and the space gained. -/
def growTo (s : SegmentedBuffer) (max : Nat) (force : Bool) : SegmentedBuffer × Bool × Nat :=
  let currentWindow := add32 s.cap s.len
  if currentWindow ≥ max then (s, force, 0)
  else
    let delta := sub32 max currentWindow
    if delta < max / 2 ∧ force = false then (s, false, 0)
    else ({ s with cap := add32 s.cap delta }, true, delta)

/-- Move past `n` of the `rest` bytes that are left in the segment at `bPos`; a
segment that was read to its end goes back to the pool. -/
def advance (s : SegmentedBuffer) (n rest : Nat) : SegmentedBuffer :=
  if n = rest then { s with b := s.b.set s.bPos [], bPos := s.bPos + 1, readPos := 0 }
  else { s with readPos := s.readPos + n }

/-- `Read` into a slice of length `size`; `none` is `io.EOF`. -/
def read (s : SegmentedBuffer) (size : Nat) : SegmentedBuffer × Option (List UInt8) :=
  if s.bPos = s.b.length then (s, none)
  else
    let data := (s.b.getD s.bPos []).drop s.readPos
    let out := data.take size
    let s := s.advance out.length data.length
    (if 0 < out.length then { s with len := sub32 s.len out.length } else s, some out)

def checkOverflow (s : SegmentedBuffer) (l : Nat) : Option WindowExceeded :=
  if s.cap < l then some ⟨s.cap, l⟩ else none

/-- Make room at the end of a full slice: it is emptied when all was read, and
shifted when more than a quarter was. -/
def compact (s : SegmentedBuffer) : SegmentedBuffer :=
  if s.bPos = s.b.length then { s with bPos := 0, b := [] }
  else if s.bPos > s.bCap / 4 then { s with b := s.b.drop s.bPos, bPos := 0 }
  else s

/-- `s.b = append(s.b, dst)`, where a full slice gets the capacity `newCap`. -/
def push (s : SegmentedBuffer) (dst : List UInt8) (newCap : Nat) : SegmentedBuffer :=
  { s with
    b := s.b ++ [dst]
    bCap := if s.b.length < s.bCap then s.bCap else max newCap (s.b.length + 1) }

/-- `Append` after the bytes `dst` were read from the connection. -/
def store (s : SegmentedBuffer) (dst : List UInt8) (newCap : Nat) : SegmentedBuffer :=
  if 0 < dst.length then
    let s := { s with len := add32 s.len dst.length, cap := sub32 s.cap dst.length }
    let s := if s.b.length = s.bCap ∧ 0 < s.bPos then s.compact else s
    s.push dst newCap
  else s

/-! ## What the buffer holds -/

/-- The bytes that were appended and not read yet. -/
def contents (s : SegmentedBuffer) : List UInt8 := (s.b.drop s.bPos).flatten.drop s.readPos

/-- The segments from `bPos` on have bytes to read. -/
structure Positions (s : SegmentedBuffer) : Prop where
  pos : s.bPos ≤ s.b.length
  segments : ∀ seg ∈ s.b.drop s.bPos, seg ≠ []
  readPos : s.readPos = 0 ∨ ∃ seg rest, s.b.drop s.bPos = seg :: rest ∧ s.readPos < seg.length

/-- Besides, `len` counts the bytes, and the window is a `uint32`. -/
structure Wf (s : SegmentedBuffer) : Prop extends Positions s where
  len : s.len = s.contents.length
  window : s.cap + s.len < 4294967296

theorem wf_new {n : Nat} (h : n < 4294967296) : (new n).Wf where
  pos := Nat.le_refl _
  segments := by
    intro seg hseg
    exact absurd hseg not_mem_nil
  readPos := .inl rfl
  len := rfl
  window := h

variable {s : SegmentedBuffer}

theorem Positions.wf_setLen (h : s.Positions) {l : Nat} (hl : l = s.contents.length)
    (hw : s.cap + l < 4294967296) : Wf { s with len := l } :=
  ⟨⟨h.pos, h.segments, h.readPos⟩, hl, hw⟩

variable {rest : List (List UInt8)} {seg : List UInt8}

/-- The contents when a segment is being read. -/
theorem contents_cons
    (hb : s.b.drop s.bPos = seg :: rest) (hpos : s.readPos ≤ seg.length) :
    s.contents = seg.drop s.readPos ++ rest.flatten := by
  rw [contents, hb, flatten_cons, drop_append_of_le_length hpos]

/-- The segment that is read next. -/
theorem Positions.live (h : s.Positions) (hpos : s.bPos ≠ s.b.length) :
    ∃ seg rest, s.b.drop s.bPos = seg :: rest ∧ s.b.getD s.bPos [] = seg ∧
      s.b.drop (s.bPos + 1) = rest ∧ s.readPos < seg.length := by
  have hlt : s.bPos < s.b.length := Nat.lt_of_le_of_ne h.pos hpos
  have hdrop : s.b.drop s.bPos = s.b[s.bPos] :: s.b.drop (s.bPos + 1) :=
    drop_eq_getElem_cons hlt
  refine ⟨s.b[s.bPos], _, hdrop, ?_, rfl, ?_⟩
  · rw [getD_eq_getElem?_getD, getElem?_eq_getElem hlt]
    rfl
  · rcases h.readPos with hzero | ⟨seg, rest, hb, hread⟩
    · rw [hzero]
      apply length_pos_of_ne_nil
      apply h.segments
      rw [hdrop]
      exact mem_cons_self
    · rw [hdrop] at hb
      obtain ⟨rfl, -⟩ := cons.inj hb
      exact hread

/-- An empty buffer has been read to its end. -/
theorem Positions.contents_nil_iff (h : s.Positions) : s.contents = [] ↔ s.bPos = s.b.length := by
  constructor
  · intro hnil
    by_contra hpos
    obtain ⟨seg, rest, hb, -, -, hread⟩ := h.live hpos
    rw [contents_cons hb (Nat.le_of_lt hread)] at hnil
    have hlen := congrArg length (append_eq_nil_iff.mp hnil).1
    rw [length_drop, length_nil] at hlen
    omega
  · intro hpos
    rw [contents, hpos, drop_length, flatten_nil, drop_nil]

/-! ## The operations -/

/-- Growing takes the window to the maximum and reports the space gained. -/
theorem growTo_spec (h : s.Wf) {max : Nat} (hmax : max < 4294967296) (force : Bool) :
    ∃ (s' : SegmentedBuffer) (needed : Bool) (delta : Nat),
      s.growTo max force = (s', needed, delta) ∧ s'.Wf ∧ s' = { s with cap := s.cap + delta } ∧
        (delta = 0 ∨ s.cap + s.len + delta = max) ∧ (needed = false → delta = 0) := by
  have hcur : add32 s.cap s.len = s.cap + s.len := add32_of_lt h.window
  have hsame : s = { s with cap := s.cap + 0 } := rfl
  unfold growTo
  rw [hcur]
  by_cases hge : s.cap + s.len ≥ max
  · refine ⟨s, force, 0, if_pos hge, h, hsame, .inl rfl, fun _ => rfl⟩
  · have hdelta : sub32 max (s.cap + s.len) = max - (s.cap + s.len) := by
      apply sub32_of_le hmax
      omega
    simp only [if_neg hge, hdelta]
    by_cases hsmall : max - (s.cap + s.len) < max / 2 ∧ force = false
    · exact ⟨s, false, 0, if_pos hsmall, h, hsame, .inl rfl, fun _ => rfl⟩
    · have hcap : add32 s.cap (max - (s.cap + s.len)) = s.cap + (max - (s.cap + s.len)) := by
        apply add32_of_lt
        omega
      refine ⟨_, true, _, if_neg hsmall, ?_, ?_, .inr (by omega), by simp⟩
      · refine ⟨⟨h.pos, h.segments, h.readPos⟩, h.len, ?_⟩
        show add32 s.cap (max - (s.cap + s.len)) + s.len < 4294967296
        omega
      · rw [hcap]

/-- A forced growth always needs an update. -/
theorem growTo_forced (s : SegmentedBuffer) (max : Nat) : (s.growTo max true).2.1 = true := by
  unfold growTo
  dsimp only
  split
  · rfl
  · rw [if_neg]
    intro h
    cases h.2

/-- Moving past `n` bytes of the segment at `bPos` takes them off the front. -/
theorem advance_spec (h : s.Positions)
    (hb : s.b.drop s.bPos = seg :: rest) (hlt : s.readPos < seg.length) {n : Nat}
    (hn : n ≤ (seg.drop s.readPos).length) :
    (s.advance n (seg.drop s.readPos).length).Positions ∧
      s.contents = (seg.drop s.readPos).take n ++
        (s.advance n (seg.drop s.readPos).length).contents := by
  have hcontents := contents_cons hb (Nat.le_of_lt hlt)
  have hbound : s.bPos < s.b.length := by
    by_contra hge
    rw [drop_eq_nil_of_le (Nat.le_of_not_lt hge)] at hb
    cases hb
  unfold advance
  by_cases hall : n = (seg.drop s.readPos).length
  · rw [if_pos hall, hall, take_length]
    have hdrop : (s.b.set s.bPos []).drop (s.bPos + 1) = rest := by
      rw [drop_set_of_lt (Nat.lt_succ_self _)]
      rw [drop_eq_getElem_cons hbound] at hb
      exact (cons.inj hb).2
    refine ⟨⟨?_, ?_, .inl rfl⟩, ?_⟩
    · rw [length_set]
      exact hbound
    · intro x hx
      rw [hdrop] at hx
      apply h.segments
      rw [hb]
      exact mem_cons_of_mem _ hx
    · rw [hcontents, contents, hdrop, drop_zero]
  · rw [if_neg hall]
    rw [length_drop] at hn hall
    have hnew : contents { s with readPos := s.readPos + n } =
        seg.drop (s.readPos + n) ++ rest.flatten := by
      refine contents_cons hb ?_
      show s.readPos + n ≤ seg.length
      omega
    refine ⟨⟨h.pos, h.segments, .inr ⟨seg, rest, hb, ?_⟩⟩, ?_⟩
    · show s.readPos + n < seg.length
      omega
    · calc s.contents = seg.drop s.readPos ++ rest.flatten := hcontents
        _ = ((seg.drop s.readPos).take n ++ (seg.drop s.readPos).drop n) ++ rest.flatten := by
            rw [take_append_drop]
        _ = (seg.drop s.readPos).take n ++ (seg.drop (s.readPos + n) ++ rest.flatten) := by
            rw [drop_drop, append_assoc]
        _ = _ := by rw [hnew]

theorem advance_counters (n rest : Nat) :
    (s.advance n rest).cap = s.cap ∧ (s.advance n rest).len = s.len := by
  unfold advance
  split <;> exact ⟨rfl, rfl⟩

/-- Reading takes bytes off the front. -/
theorem read_spec (h : s.Wf) {size : Nat} {s' : SegmentedBuffer} {out : Option (List UInt8)}
    (hread : s.read size = (s', out)) :
    s'.Wf ∧ s.contents = out.getD [] ++ s'.contents ∧ s'.cap = s.cap ∧
      s.len = s'.len + (out.getD []).length ∧ (out = none ↔ s.contents = []) := by
  unfold read at hread
  by_cases hpos : s.bPos = s.b.length
  · rw [if_pos hpos] at hread
    obtain ⟨rfl, rfl⟩ := Prod.mk.inj hread
    exact ⟨h, rfl, rfl, rfl, iff_of_true rfl (h.contents_nil_iff.mpr hpos)⟩
  · rw [if_neg hpos] at hread
    obtain ⟨seg, rest, hb, hget, -, hlt⟩ := h.live hpos
    simp only [hget] at hread
    set data := seg.drop s.readPos with hdata
    set t := s.advance (data.take size).length data.length with ht
    have hle : (data.take size).length ≤ data.length := by
      rw [length_take]
      exact Nat.min_le_right _ _
    obtain ⟨hp, hcont⟩ := advance_spec h.toPositions hb hlt hle
    obtain ⟨hcap, hlen⟩ := advance_counters (data.take size).length data.length
    rw [← ht] at hp hcont
    rw [← ht] at hcap hlen
    have htake : data.take (data.take size).length = data.take size := by
      rw [length_take, take_eq_take_iff]
      omega
    rw [htake] at hcont
    have htotal : s.len = (data.take size).length + t.contents.length := by
      rw [h.len, hcont, length_append]
    have hwin := h.window
    have hne : s.contents ≠ [] := mt h.contents_nil_iff.mp hpos
    by_cases hzero : 0 < (data.take size).length
    · rw [if_pos hzero] at hread
      obtain ⟨rfl, rfl⟩ := Prod.mk.inj hread
      have hsub : sub32 t.len (data.take size).length = t.contents.length := by
        rw [sub32_of_le (by omega) (by omega)]
        omega
      rw [hsub]
      refine ⟨hp.wf_setLen rfl (by omega), hcont, hcap, ?_, by simp [hne]⟩
      show s.len = t.contents.length + (data.take size).length
      omega
    · rw [if_neg hzero] at hread
      obtain ⟨rfl, rfl⟩ := Prod.mk.inj hread
      refine ⟨⟨hp, by omega, by omega⟩, hcont, hcap, ?_, by simp [hne]⟩
      show s.len = t.len + (data.take size).length
      omega

/-- A read of positive size returns a byte if there is one. -/
theorem read_ne_nil (h : s.Wf) (hs : s.contents ≠ []) {size : Nat} (hsize : 0 < size) :
    ∃ out, (s.read size).2 = some out ∧ out ≠ [] := by
  have hpos : s.bPos ≠ s.b.length := mt h.contents_nil_iff.mpr hs
  obtain ⟨seg, -, -, hget, -, hlt⟩ := h.live hpos
  refine ⟨(seg.drop s.readPos).take size, by simp only [read, if_neg hpos, hget], ?_⟩
  rw [← length_pos_iff, length_take, length_drop]
  omega

/-- Compacting keeps the contents. -/
theorem compact_spec (h : s.Positions) :
    s.compact.Positions ∧ s.compact.contents = s.contents ∧ s.compact.cap = s.cap ∧
      s.compact.len = s.len := by
  unfold compact
  by_cases hpos : s.bPos = s.b.length
  · rw [if_pos hpos]
    have hnil := h.contents_nil_iff.mpr hpos
    have hzero : s.readPos = 0 := by
      rcases h.readPos with hzero | ⟨seg, rest, hb, -⟩
      · exact hzero
      · rw [hpos, drop_length] at hb
        cases hb
    refine ⟨⟨Nat.le_refl _, fun seg hseg => absurd hseg not_mem_nil, .inl hzero⟩, ?_, rfl, rfl⟩
    rw [hnil]
    simp [contents]
  · rw [if_neg hpos]
    by_cases hquarter : s.bPos > s.bCap / 4
    · rw [if_pos hquarter]
      exact ⟨⟨Nat.zero_le _, h.segments, h.readPos⟩, rfl, rfl, rfl⟩
    · rw [if_neg hquarter]
      exact ⟨h, rfl, rfl, rfl⟩

variable {dst : List UInt8}

/-- A segment is put at the end. -/
theorem push_spec (h : s.Positions) (hdst : dst ≠ []) (newCap : Nat) :
    (s.push dst newCap).Positions ∧ (s.push dst newCap).contents = s.contents ++ dst := by
  have hdrop : (s.b ++ [dst]).drop s.bPos = s.b.drop s.bPos ++ [dst] :=
    drop_append_of_le_length h.pos
  have hbound : s.readPos ≤ (s.b.drop s.bPos).flatten.length := by
    rcases h.readPos with hzero | ⟨seg, rest, hb, hlt⟩
    · omega
    · rw [hb, flatten_cons, length_append]
      omega
  refine ⟨⟨?_, ?_, ?_⟩, ?_⟩
  · show s.bPos ≤ (s.b ++ [dst]).length
    have := h.pos
    rw [length_append]
    omega
  · rw [show (s.push dst newCap).b.drop (s.push dst newCap).bPos = _ from hdrop]
    exact forall_mem_append.mpr ⟨h.segments, forall_mem_singleton.mpr hdst⟩
  · rcases h.readPos with hzero | ⟨seg, rest, hb, hlt⟩
    · exact .inl hzero
    · refine .inr ⟨seg, rest ++ [dst], ?_, hlt⟩
      show (s.b ++ [dst]).drop s.bPos = seg :: (rest ++ [dst])
      rw [hdrop, hb, cons_append]
  · show ((s.b ++ [dst]).drop s.bPos).flatten.drop s.readPos = _
    rw [hdrop, flatten_append, flatten_singleton, drop_append_of_le_length hbound]
    rfl

/-- Appending puts bytes at the end and takes their number from the capacity. -/
theorem store_spec (h : s.Wf) (hfit : dst.length ≤ s.cap) (newCap : Nat) :
    (s.store dst newCap).Wf ∧ (s.store dst newCap).contents = s.contents ++ dst ∧
      (s.store dst newCap).cap + dst.length = s.cap ∧
      (s.store dst newCap).len = s.len + dst.length := by
  have hwin := h.window
  unfold store
  by_cases hzero : 0 < dst.length
  · rw [if_pos hzero]
    have hlen : add32 s.len dst.length = s.len + dst.length := add32_of_lt (by omega)
    have hcap : sub32 s.cap dst.length = s.cap - dst.length := sub32_of_le (by omega) hfit
    simp only [hlen, hcap]
    set t : SegmentedBuffer := { s with len := s.len + dst.length, cap := s.cap - dst.length } with ht
    have hp : t.Positions := ⟨h.pos, h.segments, h.readPos⟩
    -- the slice is compacted or left alone
    obtain ⟨u, hu, hup, hucont, hucap, hulen⟩ : ∃ u, (if t.b.length = t.bCap ∧ 0 < t.bPos then t.compact
        else t) = u ∧ u.Positions ∧ u.contents = s.contents ∧ u.cap = t.cap ∧ u.len = t.len := by
      split
      · obtain ⟨h₁, h₂, h₃, h₄⟩ := compact_spec hp
        exact ⟨_, rfl, h₁, h₂, h₃, h₄⟩
      · exact ⟨_, rfl, hp, rfl, rfl, rfl⟩
    rw [hu]
    obtain ⟨hq, hqcont⟩ := push_spec hup (length_pos_iff.mp hzero) newCap
    rw [hucont] at hqcont
    have hcap' : (u.push dst newCap).cap = s.cap - dst.length := hucap
    have hlen' : (u.push dst newCap).len = s.len + dst.length := hulen
    refine ⟨⟨hq, ?_, ?_⟩, hqcont, ?_, hlen'⟩
    · rw [hqcont, length_append, hlen', h.len]
    · omega
    · omega
  · rw [if_neg hzero]
    have hnil : dst = [] := length_eq_zero_iff.mp (by omega)
    rw [hnil, append_nil]
    exact ⟨h, rfl, rfl, rfl⟩

/-! ## Runs of calls -/

/-- The error of `Append`: the window was exceeded, or the source failed after the bytes that
were stored. -/
inductive AppendErr where
  | windowExceeded (err : WindowExceeded)
  | source
  deriving DecidableEq, Repr

/-- `Append` of `length` bytes from a source that gives `input` and then fails. -/
def append (s : SegmentedBuffer) (input : List UInt8) (length newCap : Nat) :
    SegmentedBuffer × Option AppendErr :=
  match s.checkOverflow length with
  | some err => (s, some (.windowExceeded err))
  | none =>
    (s.store (input.take length) newCap, if input.length < length then some .source else none)

inductive Call where
  | append (input : List UInt8) (length : UInt32) (newCap : Nat)
  | read (size : Nat)
  | growTo (max : UInt32) (force : Bool)

/-- The buffer, with the bytes that were appended to it and those that were read from it. -/
structure Traced where
  buf : SegmentedBuffer
  appended : List UInt8 := []
  returned : List UInt8 := []

def Traced.step (t : Traced) : Call → Traced
  | .append input length newCap =>
    { t with
      buf := (t.buf.append input length.toNat newCap).1
      appended := t.appended ++
        if t.buf.cap < length.toNat then [] else input.take length.toNat }
  | .read size =>
    { t with
      buf := (t.buf.read size).1
      returned := t.returned ++ (t.buf.read size).2.getD [] }
  | .growTo max force => { t with buf := (t.buf.growTo max.toNat force).1 }

/-- What was appended is what was read and what the buffer holds, in that order. -/
structure Traced.Fifo (t : Traced) : Prop where
  wf : t.buf.Wf
  bytes : t.appended = t.returned ++ t.buf.contents

theorem Traced.Fifo.step {t : Traced} (h : t.Fifo) (call : Call) : (t.step call).Fifo := by
  cases call with
  | append input length newCap =>
    by_cases hcap : t.buf.cap < length.toNat
    · refine ⟨?_, ?_⟩
      · simpa only [Traced.step, append, checkOverflow, if_pos hcap] using h.wf
      · simpa only [Traced.step, append, checkOverflow, if_pos hcap, append_nil] using h.bytes
    · have hfit : (input.take length.toNat).length ≤ t.buf.cap := by
        rw [length_take]
        omega
      obtain ⟨hwf, hcontents, -⟩ := store_spec h.wf hfit newCap
      refine ⟨?_, ?_⟩
      · simpa only [Traced.step, append, checkOverflow, if_neg hcap] using hwf
      · simp only [Traced.step, append, checkOverflow, if_neg hcap]
        rw [hcontents, h.bytes, append_assoc]
  | read size =>
    obtain ⟨hwf, hcontents, -⟩ := read_spec h.wf ((t.buf.read size).eta).symm
    refine ⟨hwf, ?_⟩
    simp only [Traced.step]
    rw [h.bytes, hcontents, append_assoc]
  | growTo max force =>
    obtain ⟨s', needed, delta, heq, hwf, hs', -⟩ := growTo_spec h.wf max.toNat_lt force
    have hbuf : (t.buf.growTo max.toNat force).1 = s' := by rw [heq]
    refine ⟨?_, ?_⟩
    · simpa only [Traced.step, hbuf] using hwf
    · simp only [Traced.step, hbuf, hs']
      exact h.bytes

/-- Compacting keeps the segments that are not read yet, each one once and in order. -/
theorem compact_segments (s : SegmentedBuffer) :
    s.compact.b.drop s.compact.bPos = s.b.drop s.bPos := by
  unfold compact
  split
  · rename_i hpos
    rw [hpos, drop_length, drop_nil]
  · split <;> rfl

/-- After any calls, what was read are the first bytes that were appended, the rest is in the
buffer and counted by `len`, a read answers `io.EOF` only when nothing is left and returns a byte
of what is left if it asks for any, and compacting keeps the segments. -/
theorem segmentedBuffer_fifo (initialCapacity : UInt32) (calls : List Call) :
    let t := calls.foldl Traced.step { buf := new initialCapacity.toNat }
    t.appended = t.returned ++ t.buf.contents ∧ t.buf.len = t.buf.contents.length ∧
      (∀ size, (t.buf.read size).2 = none ↔ t.buf.contents = []) ∧
      (∀ size, 0 < size → t.buf.contents ≠ [] → ∃ out, (t.buf.read size).2 = some out ∧ out ≠ []) ∧
      t.buf.compact.b.drop t.buf.compact.bPos = t.buf.b.drop t.buf.bPos := by
  have hrun : ∀ (calls : List Call) (t : Traced), t.Fifo → (calls.foldl .step t).Fifo := by
    intro calls
    induction calls with
    | nil => exact fun _ h => h
    | cons call calls ih => exact fun _ h => ih _ (h.step call)
  have hfifo := hrun calls { buf := new initialCapacity.toNat }
    ⟨wf_new initialCapacity.toNat_lt, rfl⟩
  refine ⟨hfifo.bytes, hfifo.wf.len, fun size => ?_, fun size hsize hne => ?_, compact_segments _⟩
  · exact (read_spec hfifo.wf ((read _ size).eta).symm).2.2.2.2
  · exact read_ne_nil hfifo.wf hne hsize

end SegmentedBuffer

end Dep2p.Yamux
