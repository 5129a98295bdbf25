import Dep2p.Swarm.DialBook
import Mathlib.Data.List.TakeWhile

/- The order of the dial queue, after any calls.

   Each element of the queue is followed with the number of the call that inserted it. The
   calls run a second time, on elements with their numbers (`numbered`): they look at the
   elements alone, and without the numbers the queue is the one of the code. What is proved
   (`dialQueue_ordered`): the elements are sorted by delay and, for one delay, by these numbers;
   `UpdateOrAdd` leaves the elements of other addresses as they are and its own address in the
   queue, never more often than before; `NextBatch` takes the elements with the least delay and
   no others. -/
namespace Dep2p.Swarm.DialQueue

open List

variable {a : AddrDelay} {q : List AddrDelay}

/-! ## The calls -/

def Sorted (q : List AddrDelay) : Prop := q.Pairwise fun x y => x.delay ≤ y.delay

/-- `Add` puts the element behind those whose delay is not larger. -/
theorem add_split (h : Sorted q) :
    ∃ l r, q = l ++ r ∧ add q a = l ++ a :: r ∧ (∀ x ∈ l, x.delay ≤ a.delay) ∧
      ∀ x ∈ r, a.delay < x.delay := by
  -- the loop runs from the end of the queue, where the delays fall
  have hrev : ∀ q, (q.Pairwise fun x y => y.delay ≤ x.delay) →
      ∃ r l, q = r ++ l ∧ addRev a q = r ++ a :: l ∧ (∀ x ∈ r, a.delay < x.delay) ∧
        ∀ x ∈ l, x.delay ≤ a.delay := by
    intro q hq
    induction q with
    | nil => exact ⟨[], [], rfl, rfl, nofun, nofun⟩
    | cons e q ih =>
      obtain ⟨he, hq⟩ := pairwise_cons.mp hq
      rw [addRev]
      split
      · rename_i hle
        exact ⟨[], e :: q, rfl, rfl, nofun,
          forall_mem_cons.mpr ⟨hle, fun x hx => (he x hx).trans hle⟩⟩
      · rename_i hgt
        obtain ⟨r, l, rfl, heq, hr, hl⟩ := ih hq
        refine ⟨e :: r, l, rfl, by rw [heq]; rfl, ?_, hl⟩
        exact forall_mem_cons.mpr ⟨not_le.mp hgt, hr⟩
  obtain ⟨r, l, hq, heq, hr, hl⟩ := hrev q.reverse (pairwise_reverse.mpr h)
  refine ⟨l.reverse, r.reverse, ?_, ?_, by simpa using hl, by simpa using hr⟩
  · rw [← reverse_append, ← hq, reverse_reverse]
  · simp [add, heq]

/-- How often an address is in the queue. -/
def times (q : List AddrDelay) (addr : Multiaddr) : Nat := q.countP (·.addr = addr)

/-- The elements of other addresses. -/
def others (q : List AddrDelay) (addr : Multiaddr) : List AddrDelay := q.filter (·.addr ≠ addr)

/-- The loop of `UpdateOrAdd` removes elements of the address. It finds the element, or makes
room for one of its address. -/
theorem updateLoop_spec (a : AddrDelay) (q : List AddrDelay) :
    (updateLoop a q).2 <+ q ∧ others (updateLoop a q).2 a.addr = others q a.addr ∧
      ((updateLoop a q).1 = true ∧ a ∈ (updateLoop a q).2 ∨ (updateLoop a q).1 = false ∧
        (times (updateLoop a q).2 a.addr = 0 ∨
          times (updateLoop a q).2 a.addr < times q a.addr)) := by
  fun_induction updateLoop a q with
  | case1 => exact ⟨.refl _, rfl, .inr ⟨rfl, .inl rfl⟩⟩
  | case2 e q haddr hdelay =>
    obtain rfl : e = a := by
      cases e
      cases a
      simp_all
    exact ⟨.refl _, rfl, .inl ⟨rfl, mem_cons_self⟩⟩
  | case3 e haddr hdelay => exact ⟨nil_sublist _, by simp [others, haddr], .inr ⟨rfl, .inl rfl⟩⟩
  | case4 e haddr hdelay e' q ih =>
    obtain ⟨hsub, hothers, hcases⟩ := ih
    refine ⟨(hsub.cons_cons e').cons e, ?_, ?_⟩
    · simp only [others, filter_cons] at hothers ⊢
      rw [hothers]
      simp [haddr]
    · refine hcases.imp (.imp_right (mem_cons_of_mem e')) fun h => ⟨h.1, .inr ?_⟩
      have hle := hsub.countP_le (p := (·.addr = a.addr))
      simp only [times, countP_cons, haddr, decide_true, if_true]
      omega
  | case5 e q haddr ih =>
    obtain ⟨hsub, hothers, hcases⟩ := ih
    refine ⟨hsub.cons_cons e, ?_, ?_⟩
    · simp only [others, filter_cons] at hothers ⊢
      rw [hothers]
    · refine hcases.imp (.imp_right (mem_cons_of_mem e)) fun h => ⟨h.1, ?_⟩
      simpa [times, haddr] using h.2

/-- What an update keeps. -/
theorem updateOrAdd_spec (h : Sorted q) (a : AddrDelay) :
    others (updateOrAdd q a) a.addr = others q a.addr ∧ a ∈ updateOrAdd q a ∧
      times (updateOrAdd q a) a.addr ≤ max 1 (times q a.addr) := by
  obtain ⟨hsub, hothers, hcases⟩ := updateLoop_spec a q
  rw [updateOrAdd]
  generalize updateLoop a q = s at hsub hothers hcases
  obtain ⟨found, q'⟩ := s
  rcases hcases with ⟨hfound, hmem⟩ | ⟨hfound, hroom⟩ <;> cases hfound
  · exact ⟨hothers, hmem, hsub.countP_le.trans (le_max_right _ _)⟩
  · obtain ⟨l, r, hq, heq, -⟩ := add_split (h.sublist hsub)
    dsimp only at hothers hroom hq ⊢
    rw [heq, ← hothers, hq]
    refine ⟨by simp [others], by simp, ?_⟩
    simp only [hq, times, countP_append, countP_cons, decide_true, if_true] at hroom ⊢
    omega

/-- The batch are the elements with the least delay. -/
theorem nextBatch_spec (h : Sorted q) :
    (nextBatch q).1 ++ (nextBatch q).2 = q ∧ ((nextBatch q).1 = [] → q = []) ∧
      ∀ x ∈ (nextBatch q).1, (∀ y ∈ q, x.delay ≤ y.delay) ∧
        ∀ y ∈ (nextBatch q).2, x.delay < y.delay := by
  have happ := nextBatch_append q
  refine ⟨happ, ?_⟩
  cases q with
  | nil => simp [nextBatch]
  | cons e q =>
    simp only [nextBatch, span_eq_takeWhile_dropWhile] at happ ⊢
    refine ⟨by simp, fun x hx => ?_⟩
    have hx' : x.delay = e.delay := by simpa using mem_takeWhile_imp hx
    have hleast : ∀ y ∈ e :: q, x.delay ≤ y.delay := by
      rw [hx']
      exact forall_mem_cons.mpr ⟨le_refl _, (pairwise_cons.mp h).1⟩
    refine ⟨hleast, fun y hy => ?_⟩
    -- the first element behind the batch has another delay, and no later one has a smaller
    have hsub := dropWhile_sublist (l := e :: q) (·.delay = e.delay)
    have hne := head?_dropWhile_not (fun z : AddrDelay => decide (z.delay = e.delay)) (e :: q)
    generalize (e :: q).dropWhile (·.delay = e.delay) = rest at hy hsub hne
    cases rest with
    | nil => cases hy
    | cons z rest =>
      have hz : z.delay ≠ e.delay := by simpa using hne
      have hxz := hleast z (hsub.subset mem_cons_self)
      have hzy : z.delay ≤ y.delay := by
        rcases mem_cons.mp hy with rfl | hy
        · exact le_refl _
        · exact (pairwise_cons.mp (h.sublist hsub)).1 y hy
      omega

/-! ## Runs -/

inductive Call where
  | add (a : AddrDelay)
  | updateOrAdd (a : AddrDelay)
  | nextBatch

/-- The queue after a call. -/
def step (q : List AddrDelay) : Call → List AddrDelay
  | .add a => add q a
  | .updateOrAdd a => updateOrAdd q a
  | .nextBatch => (nextBatch q).2

/-! ## Numbered elements -/

/-- An element with the number of the call that inserted it. -/
abbrev Elem := AddrDelay × Nat

namespace Elem

/-- `addRev`, `add`, `updateLoop`, `nextBatch` and `step`, on elements with numbers. -/
def addRev (x : Elem) : List Elem → List Elem
  | [] => [x]
  | e :: q => if e.1.delay ≤ x.1.delay then x :: e :: q else e :: addRev x q

def add (q : List Elem) (x : Elem) : List Elem := (addRev x q.reverse).reverse

def updateLoop (x : AddrDelay) : List Elem → Bool × List Elem
  | [] => (false, [])
  | e :: q =>
    if e.1.addr = x.addr then
      if e.1.delay = x.delay then (true, e :: q)
      else match q with
        | [] => (false, [])
        | e' :: q' => ((updateLoop x q').1, e' :: (updateLoop x q').2)
    else ((updateLoop x q).1, e :: (updateLoop x q).2)

def nextBatch : List Elem → List Elem × List Elem
  | [] => ([], [])
  | e :: q => (e :: q).span (·.1.delay = e.1.delay)

/-- What a call inserts gets its number `n`. -/
def step (n : Nat) (q : List Elem) : Call → List Elem
  | .add a => add q (a, n)
  | .updateOrAdd a =>
    match updateLoop a q with
    | (true, q) => q
    | (false, q) => add q (a, n)
  | .nextBatch => (nextBatch q).2

end Elem

/-- The elements of the queue after the calls, which are numbered in their order. -/
def numbered (calls : List Call) : List Elem :=
  calls.zipIdx.foldl (fun q call => Elem.step call.2 q call.1) []

/-- A smaller delay, or the same delay and an earlier call. -/
def Before (x y : Elem) : Prop :=
  x.1.delay < y.1.delay ∨ x.1.delay = y.1.delay ∧ x.2 < y.2

variable {es es' : List Elem} {x : Elem} {n : Nat}

theorem map_addRev : (Elem.addRev x es).map Prod.fst = addRev x.1 (es.map Prod.fst) := by
  induction es with
  | nil => rfl
  | cons e es ih =>
    rw [Elem.addRev, map_cons, addRev]
    split
    · rfl
    · rw [map_cons, ih]

theorem map_add : (Elem.add es x).map Prod.fst = add (es.map Prod.fst) x.1 := by
  rw [Elem.add, add, map_reverse, map_addRev, map_reverse]

theorem map_updateLoop (a : AddrDelay) (es : List Elem) :
    updateLoop a (es.map Prod.fst) =
      ((Elem.updateLoop a es).1, (Elem.updateLoop a es).2.map Prod.fst) := by
  fun_induction Elem.updateLoop a es with
  | case1 => rfl
  | case2 e q haddr hdelay => rw [map_cons, updateLoop.eq_def]; simp [haddr, hdelay]
  | case3 e haddr hdelay => simp [updateLoop, haddr, hdelay]
  | case4 e haddr hdelay e' q ih => simp [updateLoop, haddr, hdelay, ih]
  | case5 e q haddr ih => rw [map_cons, updateLoop.eq_def]; simp [haddr, ih]

/-- Without the numbers a step is the step of the queue. -/
theorem map_step (call : Call) :
    (Elem.step n es call).map Prod.fst = step (es.map Prod.fst) call := by
  cases call with
  | add a => exact map_add
  | updateOrAdd a =>
    simp only [Elem.step, step, updateOrAdd, map_updateLoop]
    generalize Elem.updateLoop a es = s
    obtain ⟨found, q⟩ := s
    cases found with
    | true => rfl
    | false => exact map_add
  | nextBatch =>
    cases es with
    | nil => rfl
    | cons e es =>
      simp only [Elem.step, Elem.nextBatch, step, nextBatch, map_cons,
        span_eq_takeWhile_dropWhile]
      rw [← map_cons, dropWhile_map]
      rfl

theorem mem_addRev {y : Elem} : y ∈ Elem.addRev x es ↔ y = x ∨ y ∈ es := by
  induction es with
  | nil => simp [Elem.addRev]
  | cons e es ih =>
    rw [Elem.addRev]
    split
    · rw [mem_cons]
    · rw [mem_cons, ih, mem_cons]
      exact or_left_comm

theorem updateLoop_sublist (a : AddrDelay) (es : List Elem) : (Elem.updateLoop a es).2 <+ es := by
  fun_induction Elem.updateLoop a es with
  | case1 | case2 e q haddr hdelay => exact .refl _
  | case3 e haddr hdelay => exact nil_sublist _
  | case4 e haddr hdelay e' q ih => exact (ih.cons_cons e').cons e
  | case5 e q haddr ih => exact ih.cons_cons e

/-- The elements after `n` calls: sorted, and inserted by one of these calls. -/
structure Numbered (n : Nat) (es : List Elem) : Prop where
  sorted : es.Pairwise Before
  lt : ∀ e ∈ es, e.2 < n

/-- A call that removes elements and inserts none. -/
theorem Numbered.sublist (h : Numbered n es) (hsub : es' <+ es) : Numbered (n + 1) es' :=
  ⟨h.sorted.sublist hsub, fun e he => Nat.lt_succ_of_lt (h.lt e (hsub.subset he))⟩

/-- The new element comes after those of its delay, which have smaller numbers. The loop
starts at the end, so the order is turned around. -/
theorem pairwise_addRev (h : es.Pairwise fun y z => Before z y) (hlt : ∀ e ∈ es, e.2 < x.2) :
    (Elem.addRev x es).Pairwise fun y z => Before z y := by
  induction es with
  | nil => exact pairwise_singleton _ x
  | cons e es ih =>
    obtain ⟨he, hes⟩ := pairwise_cons.mp h
    rw [Elem.addRev]
    split
    · rename_i hle
      refine pairwise_cons.mpr ⟨fun y hy => ?_, h⟩
      have hye : y.1.delay ≤ e.1.delay := by
        rcases mem_cons.mp hy with rfl | hy
        · exact le_refl _
        · exact (he y hy).elim (·.le) (·.1.le)
      exact (hye.trans hle).lt_or_eq.imp_right fun heq => ⟨heq, hlt y hy⟩
    · rename_i hgt
      refine pairwise_cons.mpr ⟨fun y hy => ?_, ih hes fun y hy => hlt y (mem_cons_of_mem e hy)⟩
      rcases mem_addRev.mp hy with rfl | hy
      · exact .inl (not_le.mp hgt)
      · exact he y hy

theorem Numbered.add (h : Numbered n es) (a : AddrDelay) : Numbered (n + 1) (Elem.add es (a, n)) where
  sorted := by
    refine pairwise_reverse.mpr (pairwise_addRev (pairwise_reverse.mpr h.sorted) fun e he => ?_)
    exact h.lt e (mem_reverse.mp he)
  lt := by
    intro e he
    rcases mem_addRev.mp (mem_reverse.mp he) with rfl | he
    · exact Nat.lt_succ_self n
    · exact Nat.lt_succ_of_lt (h.lt e (mem_reverse.mp he))

theorem Numbered.step (h : Numbered n es) (call : Call) : Numbered (n + 1) (Elem.step n es call) := by
  cases call with
  | add a => exact h.add a
  | updateOrAdd a =>
    -- the loop only removes; what it does not find is inserted as a new element
    have hkept : Numbered n (Elem.updateLoop a es).2 :=
      ⟨h.sorted.sublist (updateLoop_sublist a es),
        fun e he => h.lt e ((updateLoop_sublist a es).subset he)⟩
    rw [Elem.step]
    split
    · rename_i q hq
      rw [hq] at hkept
      exact hkept.sublist (.refl q)
    · rename_i q hq
      rw [hq] at hkept
      exact hkept.add a
  | nextBatch =>
    refine h.sublist ?_
    show (Elem.nextBatch es).2 <+ es
    cases es with
    | nil => exact .refl _
    | cons e es =>
      simp only [Elem.nextBatch, span_eq_takeWhile_dropWhile]
      exact dropWhile_sublist _

/-- The run: the numbered elements are those of the queue, in order. -/
theorem numbered_run (calls : List Call) :
    (numbered calls).map Prod.fst = calls.foldl step [] ∧ Numbered calls.length (numbered calls) := by
  induction calls using reverseRecOn with
  | nil => exact ⟨rfl, .nil, nofun⟩
  | append_singleton calls call ih =>
    have hrun : numbered (calls ++ [call]) = Elem.step calls.length (numbered calls) call := by
      simp [numbered, zipIdx_append]
    rw [hrun, foldl_append, length_append]
    exact ⟨by rw [map_step, ih.1]; rfl, ih.2.step call⟩

/-- After any calls the queue is sorted by delay and, for one delay, by insertion; an update
keeps the elements of other addresses and the address itself, and never adds a copy of it; and
the next batch are the elements with the least delay. -/
theorem dialQueue_ordered (calls : List Call) :
    let q := calls.foldl step []
    ((numbered calls).map Prod.fst = q ∧ (numbered calls).Pairwise Before) ∧
      (∀ a, others (updateOrAdd q a) a.addr = others q a.addr ∧ a ∈ updateOrAdd q a ∧
        times (updateOrAdd q a) a.addr ≤ max 1 (times q a.addr)) ∧
      (nextBatch q).1 ++ (nextBatch q).2 = q ∧ ((nextBatch q).1 = [] → q = []) ∧
      ∀ x ∈ (nextBatch q).1, (∀ y ∈ q, x.delay ≤ y.delay) ∧
        ∀ y ∈ (nextBatch q).2, x.delay < y.delay := by
  obtain ⟨hmap, hrun⟩ := numbered_run calls
  have hq : Sorted (calls.foldl step []) := by
    rw [← hmap]
    exact pairwise_map.mpr (hrun.sorted.imp fun hb => hb.elim (·.le) (·.1.le))
  exact ⟨⟨hmap, hrun.sorted⟩, updateOrAdd_spec hq, nextBatch_spec hq⟩

end Dep2p.Swarm.DialQueue
