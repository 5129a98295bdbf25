import Mathlib.Data.List.Basic

/- Readers that hand out a sequence in pieces.

   A `Source` gives what it holds chunk by chunk: a read of at most `k` elements returns the
   first chunk, or as much of it as there is room for. An empty chunk is a read that
   returns nothing. The end of file comes after the last chunk, or together with it.
   `readFull` repeats reads until it has all it was asked for; what it returns depends on
   the elements that are left only (`readFull_append`, `readFull_short`), not on the
   chunks. -/
namespace Dep2p.Lib

open List

inductive ReadErr where
  | eof | unexpectedEOF | noProgress
  deriving DecidableEq, Repr

structure Source (β : Type) where
  chunks : List (List β)
  /-- The last chunk comes together with the end of file. -/
  eofLast : Bool := false
  deriving DecidableEq, Repr

namespace Source

variable {β : Type}

/-- All that is left to read. -/
def rest (s : Source β) : List β := s.chunks.flatten

/-- One read into a buffer of length `k`: the elements and whether the file has ended. -/
def read (s : Source β) (k : Nat) : List β × Bool × Source β :=
  match s.chunks with
  | [] => ([], true, s)
  | c :: cs =>
    if c.length ≤ k then (c, cs.isEmpty && s.eofLast, { s with chunks := cs })
    else (c.take k, false, { s with chunks := c.drop k :: cs })

variable {k : Nat}

/-- A read that goes on takes a chunk away or fills the buffer. -/
theorem read_decreases (s : Source β) (hk : 0 < k) (h : ¬ (s.read k).2.1 = true) :
    (s.read k).2.2.chunks.length + (k - (s.read k).1.length) < s.chunks.length + k := by
  unfold read at h ⊢
  split at h
  · exact absurd rfl h
  rename_i c cs hcs
  split
  · simp only [hcs, length_cons]
    omega
  · simp only [hcs, length_cons, length_take]
    omega

/-- The loop of `io.ReadAtLeast`, with what it has so far. -/
def readLoop (s : Source β) (got : List β) (min : Nat) : List β × Source β :=
  if got.length < min then
    if (s.read (min - got.length)).2.1 = true then
      (got ++ (s.read (min - got.length)).1, (s.read (min - got.length)).2.2)
    else readLoop (s.read (min - got.length)).2.2 (got ++ (s.read (min - got.length)).1) min
  else (got, s)
termination_by s.chunks.length + (min - got.length)
decreasing_by
  rename_i hlt hend
  have hdec := s.read_decreases (Nat.sub_pos_of_lt hlt) hend
  rw [length_append]
  omega

/-- `io.ReadFull` with a buffer of length `k`. -/
def readFull (s : Source β) (k : Nat) : List β × Option ReadErr × Source β :=
  let (bs, s') := s.readLoop [] k
  if k ≤ bs.length then (bs, none, s')
  else if 0 < bs.length then (bs, some .unexpectedEOF, s')
  else (bs, some .eof, s')

/-! ## What is read does not depend on the chunks -/

/-- A read returns a first part of what is left, all of it if the file has ended. -/
theorem read_spec (s : Source β) (k : Nat) :
    (s.read k).1 ++ (s.read k).2.2.rest = s.rest ∧ (s.read k).1.length ≤ k ∧
      ((s.read k).2.1 = true → (s.read k).2.2.rest = []) := by
  unfold read rest
  split
  · rename_i hnil
    simp [hnil]
  · rename_i c cs hcs
    split
    · rename_i hle
      refine ⟨by simp [hcs], hle, fun hend => ?_⟩
      have hempty : cs = [] := by
        cases cs with
        | nil => rfl
        | cons d ds => cases hend
      simp [hempty]
    · refine ⟨?_, length_take_le _ _, fun hend => by cases hend⟩
      simp [hcs, ← append_assoc]

/-- The loop ends with enough, and not more, or with all there is. -/
theorem readLoop_spec (s : Source β) (got : List β) (min : Nat) (hgot : got.length ≤ min) :
    (s.readLoop got min).1 ++ (s.readLoop got min).2.rest = got ++ s.rest ∧
      ((s.readLoop got min).1.length = min ∨
        (s.readLoop got min).1.length < min ∧ (s.readLoop got min).2.rest = []) := by
  fun_induction readLoop s got min with
  | case1 s got hlt hend =>
    obtain ⟨hrest, hlen, hnil⟩ := s.read_spec (min - got.length)
    refine ⟨by rw [append_assoc, hrest], ?_⟩
    have hbound : (got ++ (s.read (min - got.length)).1).length ≤ min := by
      rw [length_append]
      omega
    rcases Nat.lt_or_eq_of_le hbound with hless | heq
    · exact .inr ⟨hless, hnil hend⟩
    · exact .inl heq
  | case2 s got hlt hend ih =>
    obtain ⟨hrest, hlen, -⟩ := s.read_spec (min - got.length)
    have hbound : (got ++ (s.read (min - got.length)).1).length ≤ min := by
      rw [length_append]
      omega
    obtain ⟨hih, hor⟩ := ih hbound
    exact ⟨by rw [hih, append_assoc, hrest], hor⟩
  | case3 s got hge => exact ⟨rfl, .inl (Nat.le_antisymm hgot (Nat.not_lt.mp hge))⟩

variable {s : Source β}

/-- `readFull` takes exactly what it is asked for. -/
theorem readFull_append {xs ys : List β} (h : s.rest = xs ++ ys) :
    ∃ s', s.readFull xs.length = (xs, none, s') ∧ s'.rest = ys := by
  obtain ⟨hrest, hor⟩ := s.readLoop_spec [] xs.length (Nat.zero_le _)
  rw [nil_append, h] at hrest
  have hlen : (s.readLoop [] xs.length).1.length = xs.length := by
    rcases hor with heq | ⟨hless, hnil⟩
    · exact heq
    · rw [hnil, append_nil] at hrest
      rw [hrest, length_append] at hless
      omega
  obtain ⟨hbs, hys⟩ := append_inj hrest hlen
  refine ⟨(s.readLoop [] xs.length).2, ?_, hys⟩
  unfold readFull
  dsimp only
  rw [if_pos (Nat.le_of_eq hlen.symm), hbs]

/-- With too little left, `readFull` returns all of it and an error. -/
theorem readFull_short (h : s.rest.length < k) :
    ∃ s', s.readFull k =
        (s.rest, some (if 0 < s.rest.length then .unexpectedEOF else .eof), s') ∧ s'.rest = [] := by
  obtain ⟨hrest, hor⟩ := s.readLoop_spec [] k (Nat.zero_le _)
  rw [nil_append] at hrest
  have hless : (s.readLoop [] k).1.length < k := by
    have hsum := congrArg length hrest
    rw [length_append] at hsum
    omega
  have hnil : (s.readLoop [] k).2.rest = [] := by
    rcases hor with heq | ⟨-, hnil⟩
    · omega
    · exact hnil
  rw [hnil, append_nil] at hrest
  refine ⟨(s.readLoop [] k).2, ?_, hnil⟩
  unfold readFull
  dsimp only
  rw [if_neg (Nat.not_le.mpr hless), hrest]
  split <;> rfl

/-- At the end of the file. -/
theorem readFull_eof (hk : 0 < k) (h : s.rest = []) :
    ∃ s', s.readFull k = ([], some .eof, s') ∧ s'.rest = [] := by
  have hshort := readFull_short (by rw [h]; exact hk)
  rw [h] at hshort
  exact hshort

/-- A chunk of the right length is read in one piece. -/
theorem readFull_chunk (c : List β) (cs : List (List β)) (e : Bool) (hc : c ≠ []) :
    (⟨c :: cs, e⟩ : Source β).readFull c.length = (c, none, ⟨cs, e⟩) := by
  have hpos : ([] : List β).length < c.length := length_pos_iff.mpr hc
  have hread : (⟨c :: cs, e⟩ : Source β).read c.length = (c, cs.isEmpty && e, ⟨cs, e⟩) := by
    simp [read]
  have hloop : (⟨c :: cs, e⟩ : Source β).readLoop [] c.length = (c, ⟨cs, e⟩) := by
    rw [readLoop, if_pos hpos]
    simp only [length_nil, Nat.sub_zero, hread, nil_append]
    split
    · rfl
    · rw [readLoop, if_neg (Nat.lt_irrefl _)]
  unfold readFull
  rw [hloop]
  simp

end Source

end Dep2p.Lib
