import Dep2p.Swarm.DialWorker

/- What the dial worker knows about its addresses and requests.

   An address is open when it is tracked and has neither a connection nor an error.
   Every open address is in exactly one place: in the queue and not dialed yet, or
   among the dials in flight, or in the hand of the event being handled (`Book`). A
   pending request waits for open addresses only, and for one at least (`Waits`).

   There is one lemma for each way an address moves: `Book.fetch` (the batch that the
   timer takes), `Book.launch` (a dial starts), `Book.take` (its result arrives),
   `Book.resolve` (its outcome is known), `Book.trackDial` and `Book.joinDial` (a
   request comes). -/
namespace Dep2p.Swarm

open Lib List
open scoped List

/-! ## The queue keeps its addresses -/

variable {x : AddrDelay}

namespace DialQueue

theorem addRev_perm (q : List AddrDelay) : (addRev x q).Perm (x :: q) := by
  induction q with
  | nil => exact .refl _
  | cons e q ih =>
    rw [addRev]
    split
    · exact .refl _
    · exact (ih.cons e).trans (.swap x e q)

theorem add_perm (q : List AddrDelay) : (add q x).Perm (x :: q) := by
  calc (addRev x q.reverse).reverse ~ addRev x q.reverse := reverse_perm _
    _ ~ x :: q.reverse := addRev_perm _
    _ ~ x :: q := (reverse_perm q).cons x

variable {q : List AddrDelay}

theorem updateLoop_of_notMem (h : x.addr ∉ q.map (·.addr)) : updateLoop x q = (false, q) := by
  induction q with
  | nil => rfl
  | cons e q ih =>
    rw [map_cons, mem_cons, not_or] at h
    rw [updateLoop.eq_def]
    simp [if_neg (Ne.symm h.1), ih h.2]

/-- The loop returns with the queue as it was, or takes the address out of it. -/
theorem updateLoop_perm (hnd : (q.map (·.addr)).Nodup) (hx : x.addr ∈ q.map (·.addr)) :
    (updateLoop x q = (true, q)) ∨
      ∃ q', updateLoop x q = (false, q') ∧ (x.addr :: q'.map (·.addr)).Perm (q.map (·.addr)) := by
  induction q with
  | nil => exact absurd hx not_mem_nil
  | cons e q ih =>
    rw [map_cons, nodup_cons] at hnd
    rw [updateLoop.eq_def]
    by_cases haddr : e.addr = x.addr
    · simp only [if_pos haddr]
      by_cases hdelay : e.delay = x.delay
      · exact .inl (by rw [if_pos hdelay])
      · right
        rw [if_neg hdelay, map_cons, haddr]
        refine ⟨q, ?_, .refl _⟩
        cases q with
        | nil => rfl
        | cons e' q' =>
          have hnot : x.addr ∉ q'.map (·.addr) := by
            intro hmem
            apply hnd.1
            rw [haddr]
            exact mem_cons_of_mem _ hmem
          simp [updateLoop_of_notMem hnot]
    · simp only [if_neg haddr]
      have hmem : x.addr ∈ q.map (·.addr) := by
        rcases mem_cons.mp hx with h | h
        · exact absurd h.symm haddr
        · exact h
      rcases ih hnd.2 hmem with h | ⟨q', h, hperm⟩
      · exact .inl (by rw [h])
      · refine .inr ⟨e :: q', by rw [h], ?_⟩
        exact (Perm.swap _ _ _).trans (hperm.cons e.addr)

theorem updateOrAdd_perm (hnd : (q.map (·.addr)).Nodup) (hx : x.addr ∈ q.map (·.addr)) :
    ((updateOrAdd q x).map (·.addr)).Perm (q.map (·.addr)) := by
  unfold updateOrAdd
  rcases updateLoop_perm hnd hx with h | ⟨q', h, hperm⟩
  · rw [h]
  · rw [h]
    exact ((add_perm q').map _).trans hperm

theorem nextBatch_append (q : List AddrDelay) : (nextBatch q).1 ++ (nextBatch q).2 = q := by
  cases q with
  | nil => rfl
  | cons e q =>
    simp only [nextBatch, span_eq_takeWhile_dropWhile]
    exact takeWhile_append_dropWhile

end DialQueue

namespace DialWorker

/-! ## Where an address is -/

def queue (w : DialWorker) : List Multiaddr := w.dq.map (·.addr)

/-- The address is tracked, and `P` holds of its dial, which has no outcome yet. -/
def Holds (w : DialWorker) (a : Multiaddr) (P : AddrDial → Prop) : Prop :=
  ∃ ad, w.trackedDials.get a = some ad ∧ ad.conn = none ∧ ad.err = none ∧ P ad

def IsOpen (w : DialWorker) (a : Multiaddr) : Prop := w.Holds a fun _ => True

variable {P : AddrDial → Prop}

theorem Holds.isOpen {w : DialWorker} {a : Multiaddr} (h : w.Holds a P) :
    w.IsOpen a := by
  obtain ⟨ad, hget, hconn, herr, -⟩ := h
  exact ⟨ad, hget, hconn, herr, trivial⟩

/-- Where the open addresses are, those of `hand` being held by the event that is
handled. -/
structure Book (hand : List Multiaddr) (w : DialWorker) : Prop where
  addr : ∀ a ad, w.trackedDials.get a = some ad → ad.addr = a
  nodup : (hand ++ w.queue ++ w.dials).Nodup
  held : ∀ a ∈ hand, w.IsOpen a
  queued : ∀ a ∈ w.queue, w.Holds a (·.dialed = false)
  dialing : ∀ a ∈ w.dials, w.Holds a (·.dialed = true)
  tracked : ∀ a, w.IsOpen a → a ∈ hand ++ w.queue ++ w.dials
  count : w.dialsInFlight = w.dials.length

/-- A pending request waits for an address, and only for open ones. -/
def Waits (w : DialWorker) : Prop :=
  ∀ pr ∈ w.pendingRequests, pr.addrs.Nonempty ∧ ∀ a ∈ pr.addrs, w.IsOpen a

variable {w w' : DialWorker} {hand : List Multiaddr} {a : Multiaddr}

theorem Holds.congr (h : w.Holds a P)
    (hget : w'.trackedDials.get a = w.trackedDials.get a) : w'.Holds a P := by
  obtain ⟨ad, had, hrest⟩ := h
  exact ⟨ad, hget.trans had, hrest⟩

theorem Book.notMem (h : Book (a :: hand) w) : a ∉ w.queue ++ w.dials := by
  have hnd := h.nodup
  rw [append_assoc, cons_append, nodup_cons] at hnd
  intro hmem
  exact hnd.1 (mem_append_right _ hmem)

/-- The places do not depend on the requests, the timer or the history. -/
theorem Book.of_same (h : Book hand w) (htracked : w'.trackedDials = w.trackedDials)
    (hdq : w'.dq = w.dq) (hdials : w'.dials = w.dials)
    (hcount : w'.dialsInFlight = w.dialsInFlight) : Book hand w' := by
  obtain ⟨p, t, q, n, c, tm, cl, nr, rs, ds, hi⟩ := w
  subst htracked hdq hdials hcount
  exact ⟨h.addr, h.nodup, h.held, h.queued, h.dialing, h.tracked, h.count⟩

/-- An open address gets another open dial; one that is queued or in flight keeps its
`dialed`. -/
theorem Book.update {ad ad' : AddrDial} (h : Book hand w) (hget : w.trackedDials.get a = some ad)
    (hopen : ad.conn = none ∧ ad.err = none) (haddr : ad'.addr = a)
    (hopen' : ad'.conn = none ∧ ad'.err = none) (hdialed : a ∈ w.queue ++ w.dials → ad'.dialed = ad.dialed) :
    Book hand { w with trackedDials := w.trackedDials.set a ad' } := by
  set w' : DialWorker := { w with trackedDials := w.trackedDials.set a ad' } with hw'
  have hne : ∀ b, b ≠ a → w'.trackedDials.get b = w.trackedDials.get b :=
    fun b hb => Table.get_set_ne _ _ hb
  have hself : w'.trackedDials.get a = some ad' := Table.get_set_self _ _ _
  have hiff : ∀ b, w.IsOpen b ↔ w'.IsOpen b := by
    intro b
    by_cases hb : b = a
    · rw [hb]
      exact iff_of_true ⟨ad, hget, hopen.1, hopen.2, trivial⟩ ⟨ad', hself, hopen'.1, hopen'.2, trivial⟩
    · exact ⟨fun hold => hold.congr (hne b hb), fun hold => hold.congr (hne b hb).symm⟩
  have hkeep : ∀ b ∈ w.queue ++ w.dials, ∀ v, w.Holds b (·.dialed = v) → w'.Holds b (·.dialed = v) := by
    intro b hb v hold
    by_cases hba : b = a
    · subst hba
      obtain ⟨d, hd, -, -, hv⟩ := hold
      rw [hget, Option.some.injEq] at hd
      subst hd
      exact ⟨ad', hself, hopen'.1, hopen'.2, (hdialed hb).trans hv⟩
    · exact hold.congr (hne b hba)
  refine ⟨?_, h.nodup, ?_, ?_, ?_, ?_, h.count⟩
  · intro b d hd
    by_cases hb : b = a
    · subst hb
      rw [hself, Option.some.injEq] at hd
      rw [← hd, haddr]
    · rw [hne b hb] at hd
      exact h.addr b d hd
  · exact fun b hb => (hiff b).mp (h.held b hb)
  · exact fun b hb => hkeep b (mem_append_left _ hb) false (h.queued b hb)
  · exact fun b hb => hkeep b (mem_append_right _ hb) true (h.dialing b hb)
  · exact fun b hb => h.tracked b ((hiff b).mpr hb)

/-- A dial in flight is taken in hand. -/
theorem Book.take (h : Book hand w) (ha : a ∈ w.dials) :
    Book (a :: hand) { w with dials := w.dials.erase a, dialsInFlight := w.dialsInFlight - 1 } := by
  have hperm : a :: hand ++ w.queue ++ w.dials.erase a ~ hand ++ w.queue ++ w.dials := by
    calc a :: hand ++ w.queue ++ w.dials.erase a
        ~ (hand ++ w.queue) ++ a :: w.dials.erase a := by
          exact perm_middle.symm
      _ ~ hand ++ w.queue ++ w.dials := (perm_cons_erase ha).symm.append_left _
  refine ⟨h.addr, hperm.nodup_iff.mpr h.nodup, ?_, h.queued, ?_, ?_, ?_⟩
  · exact forall_mem_cons.mpr ⟨(h.dialing a ha).isOpen, h.held⟩
  · exact fun b hb => h.dialing b (mem_of_mem_erase hb)
  · exact fun b hb => hperm.mem_iff.mpr (h.tracked b hb)
  · show w.dialsInFlight - 1 = ((w.dials.erase a).length : Int)
    have hpos := length_pos_of_mem ha
    rw [h.count, length_erase_of_mem ha]
    omega

/-- An address in hand is in flight. -/
theorem Book.launch (h : Book (a :: hand) w) (ha : w.Holds a (·.dialed = true)) :
    Book hand { w with dials := a :: w.dials, dialsInFlight := w.dialsInFlight + 1 } := by
  have hperm : hand ++ w.queue ++ a :: w.dials ~ a :: hand ++ w.queue ++ w.dials := by
    exact perm_middle
  refine ⟨h.addr, hperm.nodup_iff.mpr h.nodup, fun b hb => h.held b (mem_cons_of_mem _ hb),
    h.queued, ?_, fun b hb => hperm.mem_iff.mpr (h.tracked b hb), ?_⟩
  · exact forall_mem_cons.mpr ⟨ha, h.dialing⟩
  · show w.dialsInFlight + 1 = ((a :: w.dials).length : Int)
    rw [h.count, length_cons]
    omega

/-- An address in hand gets its outcome, or is not tracked any more. -/
theorem Book.resolve {t : Table Multiaddr AddrDial} (h : Book (a :: hand) w)
    (hne : ∀ b, b ≠ a → t.get b = w.trackedDials.get b)
    (hself : ∀ ad, t.get a = some ad → ad.addr = a ∧ ¬ (ad.conn = none ∧ ad.err = none)) :
    Book hand { w with trackedDials := t } := by
  set w' : DialWorker := { w with trackedDials := t } with hw'
  have hnd := h.nodup
  rw [append_assoc, cons_append, nodup_cons] at hnd
  have hkeep : ∀ b ∈ hand ++ (w.queue ++ w.dials), ∀ P, w.Holds b P → w'.Holds b P := by
    intro b hb P hold
    refine hold.congr (hne b ?_)
    rintro rfl
    exact hnd.1 hb
  refine ⟨?_, ?_, ?_, ?_, ?_, ?_, h.count⟩
  · intro b d hd
    by_cases hb : b = a
    · subst hb
      exact (hself d hd).1
    · exact h.addr b d ((hne b hb).symm.trans hd)
  · rw [append_assoc]
    exact hnd.2
  · exact fun b hb => hkeep b (mem_append_left _ hb) _ (h.held b (mem_cons_of_mem _ hb))
  · exact fun b hb =>
      hkeep b (mem_append_right _ (mem_append_left _ hb)) _ (h.queued b hb)
  · exact fun b hb =>
      hkeep b (mem_append_right _ (mem_append_right _ hb)) _ (h.dialing b hb)
  · intro b hb
    have hba : b ≠ a := by
      rintro rfl
      obtain ⟨d, hd, hconn, herr, -⟩ := hb
      exact (hself d hd).2 ⟨hconn, herr⟩
    have hmem := h.tracked b (hb.congr (hne b hba).symm)
    rw [cons_append, cons_append, mem_cons] at hmem
    exact hmem.resolve_left hba

/-- The next batch is taken in hand. -/
theorem Book.fetch {batch rest : List AddrDelay} (h : Book [] w) (hq : batch ++ rest = w.dq) :
    Book (batch.map (·.addr)) { w with dq := rest } := by
  have hqueue : w.queue = batch.map (·.addr) ++ rest.map (·.addr) := by
    rw [queue, ← hq, map_append]
  refine ⟨h.addr, ?_, ?_, ?_, h.dialing, ?_, h.count⟩
  · have := h.nodup
    rw [hqueue] at this
    exact this
  · intro b hb
    exact (h.queued b (by rw [hqueue]; exact mem_append_left _ hb)).isOpen
  · intro b hb
    exact h.queued b (by rw [hqueue]; exact mem_append_right _ hb)
  · intro b hb
    have := h.tracked b hb
    rw [hqueue] at this
    exact this

/-- A new address is tracked and queued. -/
theorem Book.trackDial (r : DialRequest) (h : Book hand w) (hx : w.trackedDials.get x.addr = none) :
    Book hand (trackDial r w x) := by
  have hqueue : (DialWorker.trackDial r w x).queue ~ x.addr :: w.queue :=
    (DialQueue.add_perm w.dq).map _
  have hperm : hand ++ (DialWorker.trackDial r w x).queue ++ w.dials ~
      x.addr :: (hand ++ w.queue ++ w.dials) := by
    calc hand ++ (DialWorker.trackDial r w x).queue ++ w.dials
        ~ hand ++ (x.addr :: w.queue) ++ w.dials := (hqueue.append_left hand).append_right _
      _ ~ x.addr :: (hand ++ w.queue) ++ w.dials := perm_middle.append_right _
  have hself : (DialWorker.trackDial r w x).trackedDials.get x.addr = some { addr := x.addr, ctx := r.ctx } :=
    Table.get_set_self _ _ _
  have hne : ∀ b, b ≠ x.addr →
      (DialWorker.trackDial r w x).trackedDials.get b = w.trackedDials.get b :=
    fun b hb => Table.get_set_ne _ _ hb
  have hclosed : ¬ w.IsOpen x.addr := by
    rintro ⟨d, hd, -⟩
    rw [hx] at hd
    cases hd
  have hkeep : ∀ b P, w.Holds b P → (DialWorker.trackDial r w x).Holds b P := by
    intro b P hold
    refine hold.congr (hne b ?_)
    rintro rfl
    exact hclosed hold.isOpen
  have hnew : x.addr ∉ hand ++ w.queue ++ w.dials := by
    intro hmem
    rcases mem_append.mp hmem with hmem | hmem
    · rcases mem_append.mp hmem with hmem | hmem
      · exact hclosed (h.held _ hmem)
      · exact hclosed (h.queued _ hmem).isOpen
    · exact hclosed (h.dialing _ hmem).isOpen
  refine ⟨?_, ?_, fun b hb => hkeep b _ (h.held b hb), ?_, fun b hb => hkeep b _ (h.dialing b hb), ?_,
    h.count⟩
  · intro b d hd
    by_cases hb : b = x.addr
    · rw [hb, hself, Option.some.injEq] at hd
      rw [← hd, hb]
    · exact h.addr b d ((hne b hb).symm.trans hd)
  · exact hperm.nodup_iff.mpr (nodup_cons.mpr ⟨hnew, h.nodup⟩)
  · intro b hb
    rcases mem_cons.mp (hqueue.mem_iff.mp hb) with rfl | hb
    · exact ⟨_, hself, rfl, rfl, rfl⟩
    · exact hkeep b _ (h.queued b hb)
  · intro b hb
    apply hperm.mem_iff.mpr
    by_cases hba : b = x.addr
    · rw [hba]
      exact mem_cons_self
    · exact mem_cons_of_mem _ (h.tracked b (hb.congr (hne b hba).symm))

/-- A queued address is looked at again for another request. -/
theorem Book.joinDial (r : DialRequest) {ad : AddrDial} (h : Book [] w)
    (hget : w.trackedDials.get ad.addr = some ad) (hopen : ad.conn = none ∧ ad.err = none) :
    Book [] (joinDial r w ad) := by
  unfold DialWorker.joinDial
  split
  · rename_i hcond
    have hdialed : ad.dialed = false := by
      cases hd : ad.dialed with
      | false => rfl
      | true => simp [hd] at hcond
    have hqueued : ad.addr ∈ w.queue := by
      have hmem := h.tracked ad.addr ⟨ad, hget, hopen.1, hopen.2, trivial⟩
      refine (mem_append.mp hmem).resolve_right ?_
      intro hdial
      obtain ⟨d, hd, -, -, htrue⟩ := h.dialing _ hdial
      rw [hget, Option.some.injEq] at hd
      rw [← hd, hdialed] at htrue
      cases htrue
    have hupdate : Book [] { w with
        trackedDials := w.trackedDials.set ad.addr { ad with ctx := { ad.ctx with simConnect := true } } } :=
      h.update hget hopen rfl hopen fun _ => rfl
    have hnd : (w.dq.map (·.addr)).Nodup := by
      have := h.nodup
      exact (nodup_append.mp this).1
    have hperm := DialQueue.updateOrAdd_perm (x := ⟨ad.addr, r.delay ad.addr⟩) hnd hqueued
    refine ⟨hupdate.addr, ?_, hupdate.held, ?_, hupdate.dialing, ?_, hupdate.count⟩
    · exact (hperm.append_right _).nodup_iff.mpr hupdate.nodup
    · exact fun b hb => hupdate.queued b (hperm.mem_iff.mp hb)
    · exact fun b hb => (hperm.append_right _).mem_iff.mpr (hupdate.tracked b hb)
  · exact h

end DialWorker

end Dep2p.Swarm
