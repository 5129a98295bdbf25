import Dep2p.Swarm.DialBook

/- Runs of the dial worker.

   The requests are numbered as they come, and each is either pending or answered
   once: pending and answered numbers together are those given out so far, each once
   (`ids`). The marks of an address tell whether it may be dialed again: not unless
   the last of them is a failure with `ErrDialBackoff` (`Fresh`).

   What is proved:
     1. `Inv.step` — every event keeps the places of the addresses, the requests and
        the history right.
     2. `dial_worker_run` — so they are right in every state that a run reaches, and
        a connection answers every request that asked for its address and did not see
        it fail with `ErrDialBackoff`.
     3. `backoff_forgets_request` — a request that saw this is not answered. -/
namespace Dep2p.Swarm.DialWorker

open Lib List Table PendRequest
open scoped List

variable {ad : AddrDial} {b : Multiaddr} {x : AddrDelay} {r : DialRequest} {c : Collected}

/-! ## Requests and marks -/

/-- The numbers of the requests, pending or answered. -/
def ids (w : DialWorker) : List Nat := w.pendingRequests.map (·.req) ++ w.responses.map (·.1)

/-- The address was not dialed before, or was backed off when last dialed. -/
def Fresh (a : Multiaddr) (marks : List Mark) : Prop :=
  marks.find? (·.addr = a) = none ∨ marks.find? (·.addr = a) = some (.failed a .errDialBackoff)

/-- Only fresh addresses were dialed. -/
def NoRepeat : List Mark → Prop
  | [] => True
  | .passed a :: marks => Fresh a marks ∧ NoRepeat marks
  | _ :: marks => NoRepeat marks

variable {m : Mark} {marks : List Mark} {a : Multiaddr}

theorem Fresh.cons_ne (hne : a ≠ m.addr) :
    Fresh a (m :: marks) ↔ Fresh a marks := by
  unfold Fresh
  rw [find?_cons_of_neg (by simpa using hne.symm)]

theorem NoRepeat.split {l₁ l₂ : List Mark} (h : NoRepeat marks)
    (heq : marks = l₁ ++ .passed a :: l₂) : Fresh a l₂ := by
  induction l₁ generalizing marks with
  | nil =>
    rw [heq] at h
    exact h.1
  | cons m l₁ ih =>
    rw [heq] at h
    have htail : NoRepeat (l₁ ++ .passed a :: l₂) := by
      cases m with
      | passed b => exact h.2
      | failed b err | connected b => exact h
    exact ih htail rfl

/-- The address may be passed to `dialNextAddr`: it is not tracked, or not dialed. -/
def Dialable (w : DialWorker) (a : Multiaddr) : Prop :=
  w.trackedDials.get a = none ∨ w.Holds a (·.dialed = false)

structure Marks (w : DialWorker) : Prop where
  noRepeat : NoRepeat w.history
  fresh : ∀ a, w.Dialable a → Fresh a w.history

/-- What happened since a request came. -/
def recent (w : DialWorker) (pr : PendRequest) : List Mark :=
  w.history.take (w.history.length - pr.since)

/-- The dial of the address failed for good. -/
def Failed (w : DialWorker) (a : Multiaddr) : Prop :=
  ∃ ad, w.trackedDials.get a = some ad ∧ ad.err ≠ none

/-- A request that does not wait for an address any more saw it fail. -/
structure Lost (w : DialWorker) : Prop where
  since : ∀ pr ∈ w.pendingRequests, pr.since ≤ w.history.length
  reason : ∀ pr ∈ w.pendingRequests, ∀ a ∈ pr.asked,
    a ∈ pr.addrs ∨ w.Failed a ∨ .failed a .errDialBackoff ∈ w.recent pr

structure Inv (hand : List Multiaddr) (w : DialWorker) : Prop where
  book : Book hand w
  waits : w.Waits
  ids : w.ids ~ range w.nextReq
  marks : w.Marks
  lost : w.Lost

variable {w w' : DialWorker} {hand : List Multiaddr} {a : Multiaddr} {pr : PendRequest}

theorem mem_recent_cons (hs : pr.since ≤ w.history.length)
    (hw : w'.history = m :: w.history) : w'.recent pr = m :: w.recent pr := by
  unfold recent
  rw [hw, length_cons, Nat.succ_sub hs, take_succ_cons]

theorem Dialable.congr (h : w.Dialable a) (hget : w'.trackedDials.get a = w.trackedDials.get a) :
    w'.Dialable a := by
  rcases h with h | h
  · exact .inl (hget.trans h)
  · exact .inr (h.congr hget)

theorem Failed.congr (h : w.Failed a) (hget : w'.trackedDials.get a = w.trackedDials.get a) :
    w'.Failed a := by
  obtain ⟨d, hd, herr⟩ := h
  exact ⟨d, hget.trans hd, herr⟩

theorem not_failed (h : w.IsOpen a) : ¬ w.Failed a := by
  obtain ⟨d, hd, -, herr, -⟩ := h
  rintro ⟨d', hd', herr'⟩
  rw [hd, Option.some.injEq] at hd'
  rw [← hd'] at herr'
  exact herr' herr

/-! ## The outcome of a dial -/

variable (backoff : Multiaddr → Bool) (best : Nat → Option ConnID)

theorem req_fail (pr : PendRequest) (a : Multiaddr) (err : DialErr) (best : Nat → Option ConnID) :
    (pr.fail a err best).elim (·.req) (·.1) = pr.req := by
  unfold fail
  split
  · dsimp only
    split
    · split <;> rfl
    · rfl
  · rfl

theorem ids_fail (a : Multiaddr) (err : DialErr) (best : Nat → Option ConnID)
    (prs : List PendRequest) :
    ((prs.map (fail a err best)).filterMap Sum.getLeft?).map (·.req) ++
      ((prs.map (fail a err best)).filterMap Sum.getRight?).map (·.1) ~
      prs.map (·.req) := by
  induction prs with
  | nil => exact .refl _
  | cons pr prs ih =>
    have hreq := req_fail pr a err best
    rw [map_cons]
    rcases hf : pr.fail a err best with pr' | res
    · rw [hf, Sum.elim_inl] at hreq
      simp only [filterMap_cons, Sum.getLeft?_inl, map_cons, hreq]
      exact ih.cons _
    · rw [hf, Sum.elim_inr] at hreq
      simp only [filterMap_cons, Sum.getRight?_inr, map_cons, hreq]
      exact perm_middle.trans (ih.cons _)

/-- A request that stays after a failure. -/
theorem mem_pending_dispatchError {err : DialErr} {best : Nat → Option ConnID}
    {pr' : PendRequest} (h : pr' ∈ (w.dispatchError ad err best).pendingRequests) :
    ∃ pr ∈ w.pendingRequests, pr'.asked = pr.asked ∧ pr'.since = pr.since ∧
      pr'.addrs = pr.addrs.erase ad.addr ∧ (ad.addr ∈ pr.addrs → pr'.addrs.Nonempty) := by
  simp only [dispatchError, mem_filterMap, mem_map, exists_exists_and_eq_and] at h
  obtain ⟨pr, hpr, hfail⟩ := h
  refine ⟨pr, hpr, ?_⟩
  unfold fail at hfail
  split at hfail
  · dsimp only at hfail
    split at hfail
    · split at hfail <;> cases hfail
    · rename_i hmem hne
      cases hfail
      exact ⟨rfl, rfl, rfl, fun _ => Finset.nonempty_iff_ne_empty.mpr hne⟩
  · rename_i hmem
    cases hfail
    exact ⟨rfl, rfl, (Finset.erase_eq_of_notMem hmem).symm, fun hc => absurd hc hmem⟩

theorem get_dispatchError_ne (w : DialWorker) (ad : AddrDial) (err : DialErr)
    (best : Nat → Option ConnID) (hb : b ≠ ad.addr) :
    (w.dispatchError ad err best).trackedDials.get b = w.trackedDials.get b := by
  unfold dispatchError
  split
  · exact get_erase_ne _ hb
  · exact get_set_ne _ _ hb

theorem get_dispatchError_self (w : DialWorker) (ad : AddrDial) (err : DialErr)
    (best : Nat → Option ConnID) :
    (w.dispatchError ad err best).trackedDials.get ad.addr =
      if err = .errDialBackoff then none else some { ad with err := some err } := by
  unfold dispatchError
  split
  · exact get_erase_self _ _
  · exact get_set_self _ _ _

/-- The dial of an address in hand is settled: the address is not open any more, and no
request that stays waits for it. -/
theorem Inv.settle (h : Inv (a :: hand) w)
    (hne : ∀ b, b ≠ a → w'.trackedDials.get b = w.trackedDials.get b)
    (hself : ∀ d, w'.trackedDials.get a = some d → d.addr = a ∧ ¬ (d.conn = none ∧ d.err = none))
    (hbook : Book hand { w with trackedDials := w'.trackedDials } → Book hand w')
    (hids : w'.ids ~ range w'.nextReq) (hm : m.addr = a) (hhist : w'.history = m :: w.history)
    (hrepeat : NoRepeat w'.history)
    (hback : w'.trackedDials.get a = none → m = .failed a .errDialBackoff)
    (hpend : ∀ pr' ∈ w'.pendingRequests, ∃ pr ∈ w.pendingRequests, pr'.asked = pr.asked ∧
      pr'.since = pr.since ∧ pr'.addrs = pr.addrs.erase a ∧
      (a ∈ pr.addrs → pr'.addrs.Nonempty ∧ (w'.Failed a ∨ m = .failed a .errDialBackoff))) :
    Inv hand w' := by
  refine ⟨hbook (h.book.resolve hne hself), ?_, hids, ⟨hrepeat, ?_⟩, ?_, ?_⟩
  · intro pr' hpr'
    obtain ⟨pr, hpr, -, -, haddrs, hin⟩ := hpend pr' hpr'
    have hwaits := h.waits pr hpr
    constructor
    · by_cases hmem : a ∈ pr.addrs
      · exact (hin hmem).1
      · rw [haddrs, Finset.erase_eq_of_notMem hmem]
        exact hwaits.1
    · intro b hb
      rw [haddrs, Finset.mem_erase] at hb
      exact (hwaits.2 b hb.2).congr (hne b hb.1)
  · intro b hb
    rw [hhist]
    by_cases hba : b = a
    · subst hba
      rcases hb with hb | ⟨d, hd, hconn, herr, -⟩
      · right
        rw [find?_cons_of_pos (by simp [hm]), hback hb]
      · exact absurd ⟨hconn, herr⟩ (hself d hd).2
    · rw [← hm] at hba
      exact (Fresh.cons_ne hba).mpr (h.marks.fresh b (hb.congr (hne b (hm ▸ hba)).symm))
  · intro pr' hpr'
    obtain ⟨pr, hpr, -, hsince, -⟩ := hpend pr' hpr'
    rw [hsince, hhist]
    exact (h.lost.since pr hpr).trans (Nat.le_succ _)
  · intro pr' hpr' b hb
    obtain ⟨pr, hpr, hasked, hsince, haddrs, hin⟩ := hpend pr' hpr'
    have hrecent : w'.recent pr' = m :: w.recent pr := by
      rw [← mem_recent_cons (h.lost.since pr hpr) hhist]
      unfold recent
      rw [hsince]
    rw [hasked] at hb
    rw [hrecent, haddrs]
    rcases h.lost.reason pr hpr b hb with hmem | hfail | hmem
    · by_cases hba : b = a
      · subst hba
        rcases (hin hmem).2 with hfail | rfl
        · exact .inr (.inl hfail)
        · exact .inr (.inr mem_cons_self)
      · exact .inl (Finset.mem_erase.mpr ⟨hba, hmem⟩)
    · refine .inr (.inl (hfail.congr (hne b ?_)))
      -- the address in hand is open, so it did not fail
      rintro rfl
      exact not_failed (h.book.held b mem_cons_self) hfail
    · exact .inr (.inr (mem_cons_of_mem _ hmem))

/-- A dial in hand that fails is settled for every request. -/
theorem Inv.dispatchError (h : Inv (ad.addr :: hand) w) (err : DialErr)
    (best : Nat → Option ConnID) : Inv hand (w.dispatchError ad err best) := by
  have hself := get_dispatchError_self w ad err best
  refine h.settle (fun b hb => get_dispatchError_ne w ad err best hb) ?_
    (fun hb => hb.of_same rfl rfl rfl rfl) ?_ rfl rfl h.marks.noRepeat ?_ ?_
  · intro d hd
    rw [hself] at hd
    split at hd
    · cases hd
    · cases hd
      exact ⟨rfl, fun hopen => by cases hopen.2⟩
  · have hids := ids_fail ad.addr err best w.pendingRequests
    calc (w.dispatchError ad err best).ids
        = ((w.pendingRequests.map (fail ad.addr err best)).filterMap Sum.getLeft?).map (·.req) ++
            (((w.pendingRequests.map (fail ad.addr err best)).filterMap Sum.getRight?).map (·.1) ++
              w.responses.map (·.1)) := by
          rw [DialWorker.ids, DialWorker.dispatchError, map_append]
      _ ~ w.ids := by
          rw [← append_assoc]
          exact hids.append_right _
      _ ~ range w.nextReq := h.ids
  · intro hnone
    rw [hself] at hnone
    split at hnone
    · rename_i hbackoff
      rw [hbackoff]
    · cases hnone
  · intro pr' hpr'
    obtain ⟨pr, hpr, hasked, hsince, haddrs, hnonempty⟩ := mem_pending_dispatchError hpr'
    refine ⟨pr, hpr, hasked, hsince, haddrs, fun hmem => ⟨hnonempty hmem, ?_⟩⟩
    by_cases hbackoff : err = .errDialBackoff
    · rw [hbackoff]
      exact .inr rfl
    · rw [if_neg hbackoff] at hself
      exact .inl ⟨_, hself, Option.some_ne_none _⟩

/-- A dial in hand that succeeds answers the requests that wait for it. -/
theorem Inv.dialSucceeded (h : Inv (ad.addr :: hand) w) (conn : ConnID) :
    Inv hand (w.dialSucceeded ad conn) := by
  have hself : (w.dialSucceeded ad conn).trackedDials.get ad.addr = some { ad with conn := some conn } :=
    get_set_self _ _ _
  refine h.settle (fun b hb => get_set_ne _ _ hb) ?_
    (fun hb => hb.of_same rfl rfl rfl rfl) ?_ rfl rfl h.marks.noRepeat ?_ ?_
  · intro d hd
    rw [hself] at hd
    cases hd
    exact ⟨rfl, fun hopen => by cases hopen.1⟩
  · have hsplit := filter_append_perm (fun pr : PendRequest => decide (ad.addr ∉ pr.addrs))
      w.pendingRequests
    have hnot : (fun pr : PendRequest => !decide (ad.addr ∉ pr.addrs)) =
        fun pr => decide (ad.addr ∈ pr.addrs) := by
      funext pr
      simp
    rw [hnot] at hsplit
    calc (w.dialSucceeded ad conn).ids
        = ((w.pendingRequests.filter fun pr => ad.addr ∉ pr.addrs) ++
            w.pendingRequests.filter fun pr => ad.addr ∈ pr.addrs).map (·.req) ++
              w.responses.map (·.1) := by
          simp only [DialWorker.ids, DialWorker.dialSucceeded, map_append, map_map,
            append_assoc]
          rfl
      _ ~ w.ids := (hsplit.map _).append_right _
      _ ~ range w.nextReq := h.ids
  · intro hnone
    rw [hself] at hnone
    cases hnone
  · intro pr hpr
    obtain ⟨hmem, hnot⟩ := mem_filter.mp hpr
    have hnot := of_decide_eq_true hnot
    exact ⟨pr, hmem, rfl, rfl, (Finset.erase_eq_of_notMem hnot).symm, fun hin => absurd hin hnot⟩

/-! ## Steps that settle nothing -/

theorem Inv.scheduleNextDial (h : Inv hand w) : Inv hand w.scheduleNextDial :=
  ⟨h.book.of_same rfl rfl rfl rfl, h.waits, h.ids, ⟨h.marks.noRepeat, h.marks.fresh⟩,
    ⟨h.lost.since, h.lost.reason⟩⟩

/-- An open address gets another open dial. -/
theorem Inv.update {ad' : AddrDial} (h : Inv hand w) (hget : w.trackedDials.get a = some ad)
    (hopen : ad.conn = none ∧ ad.err = none) (haddr : ad'.addr = a)
    (hopen' : ad'.conn = none ∧ ad'.err = none)
    (hdialed : a ∈ w.queue ++ w.dials → ad'.dialed = ad.dialed)
    (hmark : ad'.dialed = false → ad.dialed = false) :
    Inv hand { w with trackedDials := w.trackedDials.set a ad' } := by
  set w' : DialWorker := { w with trackedDials := w.trackedDials.set a ad' } with hw'
  have hne : ∀ b, b ≠ a → w'.trackedDials.get b = w.trackedDials.get b :=
    fun b hb => get_set_ne _ _ hb
  have hself : w'.trackedDials.get a = some ad' := get_set_self _ _ _
  refine ⟨h.book.update hget hopen haddr hopen' hdialed, ?_, h.ids, ⟨h.marks.noRepeat, ?_⟩,
    ⟨h.lost.since, ?_⟩⟩
  · intro pr hpr
    refine ⟨(h.waits pr hpr).1, ?_⟩
    intro b hb
    by_cases hba : b = a
    · rw [hba]
      exact ⟨ad', hself, hopen'.1, hopen'.2, trivial⟩
    · exact ((h.waits pr hpr).2 b hb).congr (hne b hba)
  · intro b hb
    apply h.marks.fresh b
    by_cases hba : b = a
    · subst hba
      rcases hb with hb | ⟨d, hd, -, -, hfalse⟩
      · rw [hself] at hb
        cases hb
      · rw [hself, Option.some.injEq] at hd
        subst hd
        exact .inr ⟨ad, hget, hopen.1, hopen.2, hmark hfalse⟩
    · exact hb.congr (hne b hba).symm
  · intro pr hpr b hb
    refine (h.lost.reason pr hpr b hb).imp_right (.imp_left fun hfail => hfail.congr (hne b ?_))
    rintro rfl
    exact not_failed ⟨ad, hget, hopen.1, hopen.2, trivial⟩ hfail

/-- A dial whose final result arrived is taken in hand. -/
theorem Inv.finishDial (h : Inv hand w) (ha : a ∈ w.dials)
    (hget : w.trackedDials.get a = some ad) : Inv (a :: hand) (w.finishDial a ad).1 := by
  obtain ⟨d, hd, hconn, herr, -⟩ := h.book.dialing a ha
  rw [hget, Option.some.injEq] at hd
  subst hd
  have htake : Inv (a :: hand)
      { w with dials := w.dials.erase a, dialsInFlight := w.dialsInFlight - 1 } :=
    ⟨h.book.take ha, h.waits, h.ids, ⟨h.marks.noRepeat, h.marks.fresh⟩, h.lost.since, h.lost.reason⟩
  exact htake.update hget ⟨hconn, herr⟩ (h.book.addr a ad hget) ⟨hconn, herr⟩ (fun _ => rfl) fun hf => hf

/-! ## The timer -/

/-- One address of the batch is dialed, or refused. -/
theorem Inv.dialOne (h : Inv (x.addr :: hand) w) (hx : w.Holds x.addr (·.dialed = false)) :
    Inv hand (dialOne backoff best w x) := by
  have hfresh := h.marks.fresh x.addr (.inr hx)
  obtain ⟨ad, hget, hconn, herr, hdialed⟩ := hx
  obtain ⟨addr, delay⟩ := x
  have haddr : ad.addr = addr := h.book.addr _ ad hget
  subst haddr
  have hset : Inv (ad.addr :: hand)
      { w with trackedDials := w.trackedDials.set ad.addr { ad with dialed := true } } :=
    h.update hget ⟨hconn, herr⟩ rfl ⟨hconn, herr⟩ (fun hmem => absurd hmem h.book.notMem) nofun
  have hpass : Inv (ad.addr :: hand) { w with
      trackedDials := w.trackedDials.set ad.addr { ad with dialed := true }
      history := .passed ad.addr :: w.history } := by
    refine ⟨hset.book.of_same rfl rfl rfl rfl, hset.waits, hset.ids, ⟨⟨hfresh, h.marks.noRepeat⟩, ?_⟩,
      ⟨?_, ?_⟩⟩
    · intro b hb
      have hba : b ≠ ad.addr := by
        rintro rfl
        rcases hb with hb | ⟨d, hd, -, -, hfalse⟩
        · rw [get_set_self] at hb
          cases hb
        · rw [get_set_self, Option.some.injEq] at hd
          rw [← hd] at hfalse
          cases hfalse
      exact (Fresh.cons_ne hba).mpr (hset.marks.fresh b hb)
    · intro pr hpr
      exact (h.lost.since pr hpr).trans (Nat.le_succ _)
    · intro pr hpr b hb
      rw [mem_recent_cons (h.lost.since pr hpr) rfl]
      exact (hset.lost.reason pr hpr b hb).imp_right (.imp_right (mem_cons_of_mem _))
  simp only [dialOne, hget]
  split
  · exact hpass.dispatchError .errDialBackoff best
  · have hlaunch := hpass.book.launch ⟨_, get_set_self _ _ _, hconn, herr, rfl⟩
    exact ⟨hlaunch, hpass.waits, hpass.ids, ⟨hpass.marks.noRepeat, hpass.marks.fresh⟩,
      ⟨hpass.lost.since, hpass.lost.reason⟩⟩

/-- Dialing one address does not touch another. -/
theorem get_dialOne_ne (h : ∀ b ad, w.trackedDials.get b = some ad → ad.addr = b) (hb : b ≠ x.addr) :
    (dialOne backoff best w x).trackedDials.get b = w.trackedDials.get b := by
  unfold dialOne
  split
  · rfl
  rename_i ad hget
  have hne : b ≠ ad.addr := by
    rw [h _ ad hget]
    exact hb
  dsimp only
  split
  · rw [get_dispatchError_ne _ _ _ _ (by exact hne)]
    exact get_set_ne _ _ hb
  · exact get_set_ne _ _ hb

theorem Inv.dialBatch (batch : List AddrDelay) (h : Inv (batch.map (·.addr)) w)
    (hbatch : ∀ x ∈ batch, w.Holds x.addr (·.dialed = false)) :
    Inv [] (batch.foldl (.dialOne backoff best) w) := by
  induction batch generalizing w with
  | nil => exact h
  | cons x batch ih =>
    have hnd := h.book.nodup
    rw [append_assoc, map_cons, cons_append, nodup_cons] at hnd
    apply ih (dialOne backoff best h (hbatch x mem_cons_self))
    intro y hy
    have hne : y.addr ≠ x.addr := by
      intro heq
      apply hnd.1
      rw [← heq]
      exact mem_append_left _ (mem_map_of_mem hy)
    exact (hbatch y (mem_cons_of_mem _ hy)).congr (get_dialOne_ne backoff best h.book.addr hne)

theorem Inv.timerFired (h : Inv [] w) (backoff : Multiaddr → Bool) (best : Nat → Option ConnID) :
    Inv [] (w.timerFired backoff best) := by
  have hq := DialQueue.nextBatch_append w.dq
  have hfetch : Inv ((DialQueue.nextBatch w.dq).1.map (·.addr))
      { w with dq := (DialQueue.nextBatch w.dq).2 } :=
    ⟨h.book.fetch hq, h.waits, h.ids, ⟨h.marks.noRepeat, h.marks.fresh⟩, h.lost.since, h.lost.reason⟩
  apply scheduleNextDial
  apply hfetch.dialBatch
  intro x hx
  apply h.book.queued
  rw [queue, ← hq, map_append]
  exact mem_append_left _ (mem_map_of_mem hx)

/-! ## Results -/

theorem Inv.progressed (h : Inv [] w) (ha : a ∈ w.dials) (isPublic : Bool) (upgrade : Int) :
    Inv [] (w.progressed a isPublic upgrade) := by
  obtain ⟨ad, hget, hconn, herr, -⟩ := h.book.dialing a ha
  simp only [DialWorker.progressed, hget]
  apply scheduleNextDial
  split
  · exact h.update hget ⟨hconn, herr⟩ (h.book.addr a ad hget) ⟨hconn, herr⟩ (fun _ => rfl) fun hf => hf
  · exact h

theorem Inv.finished (h : Inv [] w) (ha : a ∈ w.dials) (res : DialResult)
    (best : Nat → Option ConnID) : Inv [] (w.finished a res best) := by
  obtain ⟨ad, hget, -⟩ := h.book.dialing a ha
  have hfin : Inv ((w.finishDial a ad).2.addr :: []) (w.finishDial a ad).1 := by
    have haddr : (w.finishDial a ad).2.addr = a := h.book.addr a ad hget
    rw [haddr]
    exact h.finishDial ha hget
  simp only [DialWorker.finished, hget]
  cases res with
  | conn c => exact hfin.dialSucceeded c
  | addConnErr err => exact hfin.dispatchError err best
  | err err => exact (hfin.dispatchError err best).scheduleNextDial

/-! ## A request -/

/-- What the loop over the ranked addresses found. -/
structure Sorted (w : DialWorker) (xs : List AddrDelay) (c : Collected) : Prop where
  todial_sub : c.todial <+ xs
  todial : ∀ x ∈ c.todial, w.trackedDials.get x.addr = none
  tojoin_sub : c.tojoin.map (·.addr) <+ xs.map (·.addr)
  tojoin : ∀ ad ∈ c.tojoin, w.trackedDials.get ad.addr = some ad ∧ ad.conn = none ∧ ad.err = none
  failed : ∀ f ∈ c.failed, w.Failed f.1
  all : ∀ x ∈ xs, x ∈ c.todial ∨ x.addr ∈ c.tojoin.map (·.addr) ∨ x.addr ∈ c.failed.map (·.1)

theorem collect_sorted (haddr : ∀ b ad, w.trackedDials.get b = some ad → ad.addr = b)
    (xs : List AddrDelay) (c : Collected) (h : w.collect xs = .ok c) : Sorted w xs c := by
  induction xs generalizing c with
  | nil =>
    cases h
    exact ⟨.refl _, nofun, .refl _, nofun, nofun, nofun⟩
  | cons x xs ih =>
    rw [collect] at h
    cases hrest : w.collect xs with
    | error conn =>
      -- every branch that goes on ends as the rest does
      simp only [hrest] at h
      split at h
      · cases h
      · split at h
        · cases h
        · split at h <;> cases h
    | ok c' =>
      have hc := ih c' hrest
      simp only [hrest] at h
      cases hget : w.trackedDials.get x.addr with
      | none =>
        simp only [hget] at h
        cases h
        refine ⟨hc.todial_sub.cons_cons x, forall_mem_cons.mpr ⟨hget, hc.todial⟩,
          hc.tojoin_sub.cons _, hc.tojoin, hc.failed, forall_mem_cons.mpr ⟨.inl mem_cons_self, ?_⟩⟩
        exact fun y hy => (hc.all y hy).imp_left (mem_cons_of_mem _)
      | some ad =>
        have hx := haddr _ ad hget
        simp only [hget] at h
        cases hconn : ad.conn with
        | some conn => simp only [hconn] at h; cases h
        | none =>
          simp only [hconn] at h
          cases herr : ad.err with
          | some err =>
            simp only [herr] at h
            cases h
            refine ⟨hc.todial_sub.cons x, hc.todial, hc.tojoin_sub.cons _, hc.tojoin,
              forall_mem_cons.mpr ⟨?_, hc.failed⟩,
              forall_mem_cons.mpr ⟨.inr (.inr mem_cons_self), ?_⟩⟩
            · exact ⟨ad, hget, by rw [herr]; exact Option.some_ne_none _⟩
            · exact fun y hy => (hc.all y hy).imp_right (.imp_right (mem_cons_of_mem _))
          | none =>
            simp only [herr] at h
            cases h
            refine ⟨hc.todial_sub.cons x, hc.todial, ?_, forall_mem_cons.mpr ⟨?_, hc.tojoin⟩,
              hc.failed, forall_mem_cons.mpr ⟨.inr (.inl ?_), ?_⟩⟩
            · rw [map_cons, hx]
              exact hc.tojoin_sub.cons_cons _
            · rw [hx]
              exact ⟨hget, hconn, herr⟩
            · rw [map_cons, hx]
              exact mem_cons_self
            · exact fun y hy => (hc.all y hy).imp_right (.imp_left (mem_cons_of_mem _))

/-- `w'` tracks what `w` does, with the same outcomes, and perhaps more. -/
structure Extends (w w' : DialWorker) : Prop where
  pendingRequests : w'.pendingRequests = w.pendingRequests
  responses : w'.responses = w.responses
  history : w'.history = w.history
  nextReq : w'.nextReq = w.nextReq
  isOpen : ∀ b, w.IsOpen b → w'.IsOpen b
  failed : ∀ b, w.Failed b → w'.Failed b
  dialable : ∀ b, w'.Dialable b → w.Dialable b

theorem Extends.refl (w : DialWorker) : Extends w w :=
  ⟨rfl, rfl, rfl, rfl, fun _ h => h, fun _ h => h, fun _ h => h⟩

theorem Extends.trans {w'' : DialWorker} (h : Extends w w') (h' : Extends w' w'') : Extends w w'' where
  pendingRequests := h'.pendingRequests.trans h.pendingRequests
  responses := h'.responses.trans h.responses
  history := h'.history.trans h.history
  nextReq := h'.nextReq.trans h.nextReq
  isOpen b hb := h'.isOpen b (h.isOpen b hb)
  failed b hb := h'.failed b (h.failed b hb)
  dialable b hb := h.dialable b (h'.dialable b hb)

theorem extends_joinDial
    (hget : w.trackedDials.get ad.addr = some ad) (hopen : ad.conn = none ∧ ad.err = none) :
    Extends w (joinDial r w ad) ∧
      ∀ b, b ≠ ad.addr → (joinDial r w ad).trackedDials.get b = w.trackedDials.get b := by
  unfold joinDial
  split
  · have hne : ∀ b, b ≠ ad.addr → (w.trackedDials.set ad.addr
        { ad with ctx := { ad.ctx with simConnect := true } }).get b = w.trackedDials.get b :=
      fun b hb => get_set_ne _ _ hb
    refine ⟨⟨rfl, rfl, rfl, rfl, ?_, ?_, ?_⟩, hne⟩
    · intro b hb
      by_cases hba : b = ad.addr
      · rw [hba]
        exact ⟨_, get_set_self _ _ _, hopen.1, hopen.2, trivial⟩
      · exact hb.congr (hne b hba)
    · intro b hb
      refine hb.congr (hne b ?_)
      rintro rfl
      exact not_failed ⟨ad, hget, hopen.1, hopen.2, trivial⟩ hb
    · intro b hb
      by_cases hba : b = ad.addr
      · subst hba
        rcases hb with hb | ⟨d, hd, -, -, hfalse⟩
        · rw [get_set_self] at hb
          cases hb
        · rw [get_set_self, Option.some.injEq] at hd
          rw [← hd] at hfalse
          exact .inr ⟨ad, hget, hopen.1, hopen.2, hfalse⟩
      · exact hb.congr (hne b hba).symm
  · exact ⟨.refl w, fun _ _ => rfl⟩

theorem extends_trackDial (hx : w.trackedDials.get x.addr = none) :
    Extends w (trackDial r w x) := by
  have hne : ∀ b, b ≠ x.addr → (trackDial r w x).trackedDials.get b = w.trackedDials.get b :=
    fun b hb => get_set_ne _ _ hb
  refine ⟨rfl, rfl, rfl, rfl, ?_, ?_, ?_⟩
  · intro b hb
    refine hb.congr (hne b ?_)
    rintro rfl
    obtain ⟨d, hd, -⟩ := hb
    rw [hx] at hd
    cases hd
  · intro b hb
    refine hb.congr (hne b ?_)
    rintro rfl
    obtain ⟨d, hd, -⟩ := hb
    rw [hx] at hd
    cases hd
  · intro b hb
    by_cases hba : b = x.addr
    · rw [hba]
      exact .inl hx
    · exact hb.congr (hne b hba).symm

/-- All the addresses that a request joins. -/
theorem Book.joinAll (ads : List AddrDial) (h : Book [] w)
    (hnd : (ads.map (·.addr)).Nodup)
    (hads : ∀ ad ∈ ads, w.trackedDials.get ad.addr = some ad ∧ ad.conn = none ∧ ad.err = none) :
    Book [] (ads.foldl (.joinDial r) w) ∧ Extends w (ads.foldl (.joinDial r) w) ∧
      ∀ b, b ∉ ads.map (·.addr) →
        (ads.foldl (.joinDial r) w).trackedDials.get b = w.trackedDials.get b := by
  induction ads generalizing w with
  | nil => exact ⟨h, .refl w, fun _ _ => rfl⟩
  | cons ad ads ih =>
    rw [map_cons, nodup_cons] at hnd
    obtain ⟨hget, hopen⟩ := hads ad mem_cons_self
    obtain ⟨hext, hne⟩ := extends_joinDial hget hopen
    have hrest : ∀ d ∈ ads, (DialWorker.joinDial r w ad).trackedDials.get d.addr = some d ∧
        d.conn = none ∧ d.err = none := by
      intro d hd
      have hda : d.addr ≠ ad.addr := by
        intro heq
        apply hnd.1
        rw [← heq]
        exact mem_map_of_mem hd
      rw [hne d.addr hda]
      exact hads d (mem_cons_of_mem _ hd)
    obtain ⟨hbook, hext', hget'⟩ := ih (h.joinDial r hget hopen) hnd.2 hrest
    refine ⟨hbook, hext.trans hext', ?_⟩
    intro b hb
    rw [map_cons, mem_cons, not_or] at hb
    rw [foldl_cons, hget' b hb.2, hne b hb.1]

/-- All the addresses that a request brings. -/
theorem Book.trackAll (xs : List AddrDelay) (h : Book [] w)
    (hnd : (xs.map (·.addr)).Nodup) (hxs : ∀ x ∈ xs, w.trackedDials.get x.addr = none) :
    Book [] (xs.foldl (.trackDial r) w) ∧ Extends w (xs.foldl (.trackDial r) w) ∧
      ∀ x ∈ xs, (xs.foldl (.trackDial r) w).IsOpen x.addr := by
  induction xs generalizing w with
  | nil => exact ⟨h, .refl w, nofun⟩
  | cons x xs ih =>
    rw [map_cons, nodup_cons] at hnd
    have hx := hxs x mem_cons_self
    have hrest : ∀ y ∈ xs, (DialWorker.trackDial r w x).trackedDials.get y.addr = none := by
      intro y hy
      have hyx : y.addr ≠ x.addr := by
        intro heq
        apply hnd.1
        rw [← heq]
        exact mem_map_of_mem hy
      exact (get_set_ne _ _ hyx).trans (hxs y (mem_cons_of_mem _ hy))
    obtain ⟨hbook, hext, hopen⟩ := ih (h.trackDial r hx) hnd.2 hrest
    refine ⟨hbook, (extends_trackDial hx).trans hext, ?_⟩
    exact forall_mem_cons.mpr ⟨hext.isOpen _ ⟨_, get_set_self _ _ _, rfl, rfl, trivial⟩, hopen⟩

theorem mem_ranking (h : x ∈ ranking r) : x.addr ∈ r.addrs := by
  obtain ⟨b, hb, rfl⟩ := mem_map.mp h
  exact mem_dedup.mp hb

theorem nodup_ranking : ((ranking r).map (·.addr)).Nodup := by
  have hmap : (ranking r).map (·.addr) = r.addrs.dedup := by
    unfold ranking
    rw [map_map]
    exact map_id _
  rw [hmap]
  exact r.addrs.nodup_dedup

/-- An address of a request is dialed, joined, or known to have failed. -/
theorem Sorted.cases (h : Sorted w (ranking r) c) (hb : b ∈ r.addrs) :
    (∃ x ∈ c.todial, x.addr = b) ∨ b ∈ c.tojoin.map (·.addr) ∨ b ∈ c.failed.map (·.1) := by
  have hmem : (⟨b, r.delay b⟩ : AddrDelay) ∈ ranking r :=
    mem_map.mpr ⟨b, mem_dedup.mpr hb, rfl⟩
  exact (h.all _ hmem).imp_left fun hx => ⟨_, hx, rfl⟩

/-- The addresses to dial or to join did not fail. -/
theorem Sorted.addrs_nonempty (h : Sorted w (ranking r) c)
    (hne : ¬ (c.todial = [] ∧ c.tojoin = [])) (req : Nat) : (w.pendRequest r req c).addrs.Nonempty := by
  have hmem : ∀ b, b ∈ r.addrs → ¬ w.Failed b → b ∈ (w.pendRequest r req c).addrs := by
    intro b hb hnot
    refine Finset.mem_sdiff.mpr ⟨mem_toFinset.mpr hb, ?_⟩
    intro hfailed
    obtain ⟨f, hf, rfl⟩ := mem_map.mp (mem_toFinset.mp hfailed)
    exact hnot (h.failed f hf)
  by_cases htodial : c.todial = []
  · obtain ⟨ad, had⟩ := exists_mem_of_ne_nil _ fun htojoin => hne ⟨htodial, htojoin⟩
    obtain ⟨hget, hconn, herr⟩ := h.tojoin ad had
    obtain ⟨x, hx, haddr⟩ := mem_map.mp (h.tojoin_sub.subset (mem_map_of_mem had))
    exact ⟨ad.addr, hmem _ (haddr ▸ mem_ranking hx) (not_failed ⟨ad, hget, hconn, herr, trivial⟩)⟩
  · obtain ⟨x, hx⟩ := exists_mem_of_ne_nil _ htodial
    refine ⟨x.addr, hmem _ (mem_ranking (h.todial_sub.subset hx)) ?_⟩
    rintro ⟨d, hd, -⟩
    rw [h.todial x hx] at hd
    cases hd

theorem range_perm_succ {l : List Nat} {n : Nat} (h : l ~ range n) : n :: l ~ range (n + 1) := by
  rw [range_succ]
  exact (h.cons n).trans (perm_append_singleton n _).symm

/-- The worker when it has numbered a request. -/
def numbered (w : DialWorker) : DialWorker := { w with nextReq := w.nextReq + 1 }

theorem Inv.respond (h : Inv [] w) (res : DialResponse) :
    Inv [] (w.numbered.respond w.nextReq res) := by
  refine ⟨h.book.of_same rfl rfl rfl rfl, h.waits, ?_, ⟨h.marks.noRepeat, h.marks.fresh⟩,
    ⟨h.lost.since, h.lost.reason⟩⟩
  calc (w.numbered.respond w.nextReq res).ids
      ~ w.nextReq :: w.ids := perm_middle
    _ ~ range (w.nextReq + 1) := range_perm_succ h.ids

theorem Inv.addRequest (h : Inv [] w)
    (hc : Sorted w.numbered (ranking r) c) (hne : ¬ (c.todial = [] ∧ c.tojoin = [])) :
    Inv [] (w.numbered.addRequest r w.nextReq c) := by
  set pr := w.numbered.pendRequest r w.nextReq c with hpr
  set w₀ : DialWorker := { w.numbered with pendingRequests := pr :: w.pendingRequests } with hw₀
  -- the addresses are tracked and queued first; the request needs them all to be open
  have hjoinNodup := hc.tojoin_sub.nodup nodup_ranking
  have hdialNodup := (hc.todial_sub.map (·.addr)).nodup nodup_ranking
  have hbook₀ : Book [] w₀ := h.book.of_same rfl rfl rfl rfl
  obtain ⟨hbook₁, hext₁, hget₁⟩ := hbook₀.joinAll c.tojoin hjoinNodup hc.tojoin
  have hnew : ∀ x ∈ c.todial, (c.tojoin.foldl (joinDial r) w₀).trackedDials.get x.addr = none := by
    intro x hx
    rw [hget₁ x.addr]
    · exact hc.todial x hx
    · intro hmem
      obtain ⟨ad, had, haddr⟩ := mem_map.mp hmem
      have hget := (hc.tojoin ad had).1
      rw [haddr, hc.todial x hx] at hget
      cases hget
  obtain ⟨hbook₂, hext₂, hopen₂⟩ := hbook₁.trackAll c.todial hdialNodup hnew
  have hext := hext₁.trans hext₂
  set w₂ := c.todial.foldl (trackDial r) (c.tojoin.foldl (joinDial r) w₀) with hw₂
  have hpending : w₂.pendingRequests = pr :: w.pendingRequests := hext.pendingRequests
  have hprOpen : ∀ b ∈ pr.addrs, w₂.IsOpen b := by
    intro b hb
    obtain ⟨hasked, hfailed⟩ := Finset.mem_sdiff.mp hb
    rcases hc.cases (mem_toFinset.mp hasked) with ⟨x, hx, rfl⟩ | hjoin | hfail
    · exact hopen₂ x hx
    · obtain ⟨ad, had, rfl⟩ := mem_map.mp hjoin
      obtain ⟨hget, hconn, herr⟩ := hc.tojoin ad had
      exact hext.isOpen _ ⟨ad, hget, hconn, herr, trivial⟩
    · exact absurd (mem_toFinset.mpr hfail) hfailed
  suffices hinv : Inv [] w₂ from hinv.scheduleNextDial
  refine ⟨hbook₂, ?_, ?_, ⟨?_, ?_⟩, ?_, ?_⟩
  · rw [Waits, hpending]
    refine forall_mem_cons.mpr ⟨⟨hc.addrs_nonempty hne w.nextReq, hprOpen⟩, fun q hq => ?_⟩
    exact ⟨(h.waits q hq).1, fun b hb => hext.isOpen b ((h.waits q hq).2 b hb)⟩
  · rw [DialWorker.ids, hext.pendingRequests, hext.responses, hext.nextReq]
    exact range_perm_succ h.ids
  · rw [hext.history]
    exact h.marks.noRepeat
  · intro b hb
    rw [hext.history]
    exact h.marks.fresh b (hext.dialable b hb)
  · intro q hq
    rw [hpending] at hq
    rw [hext.history]
    rcases mem_cons.mp hq with rfl | hq
    · exact le_refl _
    · exact h.lost.since q hq
  · intro q hq b hb
    rw [hpending] at hq
    have hrecent : w₂.recent q = w.recent q := by
      rw [recent, hext.history]
      rfl
    rw [hrecent]
    rcases mem_cons.mp hq with rfl | hq
    · by_cases hfail : b ∈ c.failed.map (·.1)
      · obtain ⟨f, hf, rfl⟩ := mem_map.mp hfail
        exact .inr (.inl (hext.failed _ (hc.failed f hf)))
      · exact .inl (Finset.mem_sdiff.mpr ⟨hb, fun hmem => hfail (mem_toFinset.mp hmem)⟩)
    · exact (h.lost.reason q hq b hb).imp_right (.imp_left (hext.failed b))

theorem Inv.request (h : Inv [] w) : Inv [] (w.request r) := by
  unfold DialWorker.request
  dsimp only
  split
  · exact h.respond _
  split
  · exact h.respond _
  split
  · exact h.respond _
  rename_i c hc
  split
  · exact h.respond _
  rename_i hne
  have hsorted : Sorted w.numbered (ranking r) c :=
    collect_sorted (w := w.numbered) h.book.addr _ c hc
  exact h.addRequest hsorted hne

/-! ## Runs -/

theorem Inv.step (h : Inv [] w) (e : Event) : Inv [] (w.step e) := by
  unfold DialWorker.step
  split
  · exact h
  cases e with
  | request r => exact h.request
  | timer backoff best =>
    simp only [turn]
    split
    · exact h
    · exact h.timerFired backoff best
  | progress addr isPublic upgrade =>
    simp only [turn]
    split
    · rename_i ha
      exact h.progressed ha isPublic upgrade
    · exact h
  | result addr res best =>
    simp only [turn]
    split
    · rename_i ha
      exact h.finished ha res best
    · exact h
  | close =>
    exact ⟨h.book.of_same rfl rfl rfl rfl, h.waits, h.ids, ⟨h.marks.noRepeat, h.marks.fresh⟩,
      ⟨h.lost.since, h.lost.reason⟩⟩

theorem inv_new : Inv [] {} := by
  refine ⟨⟨nofun, nodup_nil, nofun, nofun, nofun, ?_, rfl⟩, nofun, .refl _,
    ⟨trivial, fun _ _ => .inl rfl⟩, nofun, nofun⟩
  rintro b ⟨d, hd, -⟩
  cases hd

theorem inv_run (hr : Reach step (fun _ _ => True) {} w) : Inv [] w := by
  apply Reach.invariant inv_new _ hr
  intro v e _ _ h
  exact h.step e

/-- The dials in flight are the tracked addresses that were dialed and have neither a
connection nor an error. -/
theorem Book.mem_dials_iff (h : Book [] w) : a ∈ w.dials ↔ w.Holds a (·.dialed = true) := by
  constructor
  · exact h.dialing a
  · intro ha
    have hmem := h.tracked a ha.isOpen
    refine (mem_append.mp hmem).resolve_left ?_
    intro hq
    obtain ⟨d, hd, -, -, hfalse⟩ := h.queued a hq
    obtain ⟨d', hd', -, -, htrue⟩ := ha
    rw [hd, Option.some.injEq] at hd'
    rw [hd', htrue] at hfalse
    cases hfalse

/-- The worker keeps its promises. -/
structure Correct (w : DialWorker) : Prop where
  /-- No request is answered twice. -/
  answeredOnce : (w.responses.map (·.1)).Nodup
  /-- A request without an answer waits for an address that is queued or in flight. -/
  waiting : ∀ req < w.nextReq, req ∉ w.responses.map (·.1) →
    ∃ pr ∈ w.pendingRequests, pr.req = req ∧
      ∃ a ∈ pr.addrs, (w.trackedDials.get a).isSome = true ∧ (a ∈ w.queue ∨ a ∈ w.dials)
  /-- The count of dials is that of the dialed addresses without a final result. -/
  inFlight : w.dialsInFlight = w.dials.length ∧ w.dials.Nodup ∧
    ∀ a, a ∈ w.dials ↔ w.Holds a (·.dialed = true)
  /-- An address that was dialed before had then failed with `ErrDialBackoff`. -/
  dialedOnce : ∀ l₁ a l₂, w.history = l₁ ++ .passed a :: l₂ → Fresh a l₂
  /-- A connection answers all that asked for its address, unless they saw it fail with
  `ErrDialBackoff`. -/
  answersAll : ∀ a c best, w.closed = false → a ∈ w.dials → ∀ pr ∈ w.pendingRequests, a ∈ pr.asked →
    .failed a .errDialBackoff ∉ w.recent pr →
      (pr.req, .conn c) ∈ (w.step (.result a (.conn c) best)).responses

theorem Inv.waiting (h : Inv [] w) {req : Nat} (hreq : req < w.nextReq)
    (hnot : req ∉ w.responses.map (·.1)) :
    ∃ pr ∈ w.pendingRequests, pr.req = req ∧
      ∃ a ∈ pr.addrs, (w.trackedDials.get a).isSome = true ∧ (a ∈ w.queue ∨ a ∈ w.dials) := by
  have hmem : req ∈ w.ids := h.ids.mem_iff.mpr (mem_range.mpr hreq)
  obtain ⟨pr, hpr, heq⟩ := mem_map.mp ((mem_append.mp hmem).resolve_right hnot)
  obtain ⟨⟨b, hb⟩, hopen⟩ := h.waits pr hpr
  refine ⟨pr, hpr, heq, b, hb, ?_, ?_⟩
  · obtain ⟨ad, hget, -⟩ := hopen b hb
    rw [hget]
    rfl
  · have := h.book.tracked b (hopen b hb)
    exact mem_append.mp this

theorem Inv.answersAll (h : Inv [] w) (c : ConnID) (best : Nat → Option ConnID)
    (hclosed : w.closed = false) (ha : a ∈ w.dials) (hpr : pr ∈ w.pendingRequests)
    (hasked : a ∈ pr.asked) (hnot : .failed a .errDialBackoff ∉ w.recent pr) :
    (pr.req, .conn c) ∈ (w.step (.result a (.conn c) best)).responses := by
  obtain ⟨ad, hget, -, herr, -⟩ := h.book.dialing a ha
  have haddr := h.book.addr a ad hget
  have hwaits : a ∈ pr.addrs := by
    rcases h.lost.reason pr hpr a hasked with hin | ⟨d, hd, hfailed⟩ | hin
    · exact hin
    · rw [hget, Option.some.injEq] at hd
      rw [← hd] at hfailed
      exact absurd herr hfailed
    · exact absurd hin hnot
  have hstep : w.step (.result a (.conn c) best) =
      (w.finishDial a ad).1.dialSucceeded (w.finishDial a ad).2 c := by
    simp [DialWorker.step, turn, hclosed, if_pos ha, DialWorker.finished, hget]
  rw [hstep]
  apply mem_append_left
  refine mem_map.mpr ⟨pr, mem_filter.mpr ⟨hpr, ?_⟩, rfl⟩
  exact decide_eq_true (by rw [DialWorker.finishDial, haddr]; exact hwaits)

/-- In every state that a sequence of events leads to, the worker is correct. -/
theorem dial_worker_run (hr : Reach DialWorker.step (fun _ _ => True) {} w) : w.Correct := by
  have h := inv_run hr
  have hids : w.ids.Nodup := h.ids.nodup_iff.mpr nodup_range
  refine ⟨(nodup_append.mp hids).2.1, fun req hreq hnot => h.waiting hreq hnot, ?_, ?_, ?_⟩
  · refine ⟨h.book.count, ?_, fun a => h.book.mem_dials_iff⟩
    have := h.book.nodup
    exact (nodup_append.mp this).2.1
  · exact fun l₁ a l₂ heq => h.marks.noRepeat.split heq
  · exact fun a c best hclosed ha pr hpr hasked hnot => h.answersAll c best hclosed ha hpr hasked hnot

/-- The address `/ip4/127.0.0.1/tcp/n`. -/
def tcpAddr (n : UInt8) : Multiaddr := [⟨4, [127, 0, 0, 1]⟩, ⟨6, [0, n]⟩]

/-- Two addresses are asked for; the first is backed off and the second dialed. Then
a request for a direct connection asks for the first again, which is dialed. -/
def secondTry : DialWorker :=
  let w : DialWorker := {}
  let w := w.step (.request { addrs := [tcpAddr 1, tcpAddr 2] })
  let w := w.step (.timer (fun a => a = tcpAddr 1) fun _ => none)
  let w := w.step (.request { ctx := { forceDirect := true }, addrs := [tcpAddr 1] })
  w.step (.timer (fun a => a = tcpAddr 1) fun _ => none)

theorem secondTry_reach : Reach step (fun _ _ => True) {} secondTry :=
  .step _ (.step _ (.step _ (.step _ .init trivial) trivial) trivial) trivial

theorem dial_worker_secondTry : secondTry.Correct := dial_worker_run secondTry_reach

/-- The first address is dialed again although it is still backed off, and when the
connection comes the first request, which is pending and asked for it, gets no answer. -/
theorem backoff_forgets_request :
    let w := secondTry.step (.result (tcpAddr 1) (.conn 7) fun _ => none)
    w.responses = [(1, .conn 7)] ∧ w.pendingRequests.map (·.req) = [0] ∧
      (∀ pr ∈ w.pendingRequests, tcpAddr 1 ∈ pr.asked) ∧
      w.history.count (.passed (tcpAddr 1)) = 2 := by
  decide +kernel

end Dep2p.Swarm.DialWorker
