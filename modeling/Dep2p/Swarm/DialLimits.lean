import Dep2p.Swarm.Limiter

/- How many dials the limiter lets run.

   The counters are right whatever happens: `fdConsuming` is the number of file
   descriptor dials that execute, and `activePerPeer` counts the jobs of a peer that
   execute or wait for a descriptor, of which there are at most `perPeerLimit`. The
   descriptor limit is not kept: a cancelled job in `waitingOnFd` gives its peer token
   to a job that may take the descriptor being freed, and `freeFDToken` then hands
   the same descriptor to the next job of the queue without a look at the counter.

   What is proved:
     1. `counters_run` — the counters are right, and the limit of every peer is
        kept, in every run.
     2. `dial_limits_kept` — both limits are kept in every run in which no finished
        dial finds a cancelled job at the head of the queue whose peer has another
        job waiting that needs a descriptor (`NoHeir`).
     3. `descriptor_handed_out_twice` — two dials execute under a limit of one. -/
namespace Dep2p.Swarm.DialLimiter

open Lib Function List

/-! ## The counters -/

/-- The counters are right when the jobs `hand` hold a peer token and are in
neither list. -/
structure Ledger (hand : List DialJob) (s : DialLimiter) : Prop where
  fd : s.fdConsuming = s.executing.countP DialJob.fd
  active : ∀ p, s.activePerPeer p = (hand.countP (·.peer = p) + s.waitingOnFd.countP (·.peer = p) +
    s.executing.countP (·.peer = p) : Nat)
  cap : ∀ p, s.activePerPeer p ≤ s.perPeerLimit
  wants : ∀ j ∈ s.waitingOnFd, j.fd = true
  home : ∀ p, ∀ j ∈ s.waitlist p, j.peer = p

/-- `s'` differs from `s` at most in its waiting lists and contexts. -/
structure SameTokens (s s' : DialLimiter) : Prop where
  fdConsuming : s'.fdConsuming = s.fdConsuming
  fdLimit : s'.fdLimit = s.fdLimit
  waitingOnFd : s'.waitingOnFd = s.waitingOnFd
  activePerPeer : s'.activePerPeer = s.activePerPeer
  perPeerLimit : s'.perPeerLimit = s.perPeerLimit
  executing : s'.executing = s.executing

variable {s s' : DialLimiter} {hand : List DialJob}

theorem Ledger.of_same (h : Ledger hand s) (hs : SameTokens s s')
    (hhome : ∀ p, ∀ j ∈ s'.waitlist p, j.peer = p) : Ledger hand s' where
  fd := by rw [hs.fdConsuming, hs.executing, h.fd]
  active p := by rw [hs.activePerPeer, hs.waitingOnFd, hs.executing, h.active p]
  cap p := by
    rw [hs.activePerPeer, hs.perPeerLimit]
    exact h.cap p
  wants := by
    rw [hs.waitingOnFd]
    exact h.wants
  home := hhome

theorem same_elapse (s : DialLimiter) : SameTokens s s.elapse := by
  unfold elapse
  split <;> exact ⟨rfl, rfl, rfl, rfl, rfl, rfl⟩

variable (p : PeerID) (wl : List DialJob)

theorem Ledger.elapse (h : Ledger hand s) : Ledger hand s.elapse := by
  apply h.of_same (same_elapse s)
  intro p j hj
  rw [waitlist_elapse] at hj
  exact h.home p j hj

theorem Ledger.setWaitlist (h : Ledger hand s) (p : PeerID) {wl : List DialJob}
    (hwl : ∀ j ∈ wl, j.peer = p) : Ledger hand (s.setWaitlist p wl) := by
  apply h.of_same (show SameTokens s (s.setWaitlist p wl) from ⟨rfl, rfl, rfl, rfl, rfl, rfl⟩)
  intro q j hj
  rw [waitlist_setWaitlist] at hj
  split at hj
  · rename_i hq
    rw [hq]
    exact hwl j hj
  · exact h.home q j hj

variable {dj : DialJob}

/-- A job that holds its peer token starts, or waits for a descriptor. -/
theorem Ledger.addCheckFdLimit (h : Ledger (dj :: hand) s) :
    Ledger hand (s.addCheckFdLimit dj) := by
  have hfd : dj.fd = shouldConsumeFd dj.addr := rfl
  unfold DialLimiter.addCheckFdLimit
  split
  · rename_i hconsume
    split
    · refine ⟨h.fd, ?_, h.cap, ?_, h.home⟩
      · intro p
        rw [h.active p]
        simp only [countP_cons, countP_append, countP_nil]
        omega
      · refine forall_mem_append.mpr ⟨h.wants, forall_mem_singleton.mpr ?_⟩
        rw [hfd, hconsume]
    · refine ⟨?_, ?_, h.cap, h.wants, h.home⟩
      · show s.fdConsuming + 1 = ((dj :: s.executing).countP DialJob.fd : Nat)
        rw [h.fd, countP_cons_of_pos (hfd.trans hconsume)]
        omega
      · intro p
        show s.activePerPeer p = _
        rw [h.active p]
        simp only [execute, countP_cons]
        omega
  · rename_i hconsume
    refine ⟨?_, ?_, h.cap, h.wants, h.home⟩
    · show s.fdConsuming = ((dj :: s.executing).countP DialJob.fd : Nat)
      rw [h.fd, countP_cons_of_neg (by rw [hfd]; exact hconsume)]
    · intro p
      show s.activePerPeer p = _
      rw [h.active p]
      simp only [execute, countP_cons]
      omega

theorem Ledger.addActive (h : Ledger hand s) (hroom : s.activePerPeer dj.peer < s.perPeerLimit) :
    Ledger (dj :: hand) (s.addActive dj.peer 1) := by
  refine ⟨h.fd, ?_, ?_, h.wants, h.home⟩
  · intro p
    have := h.active p
    simp only [DialLimiter.addActive, update_apply, countP_cons]
    by_cases hp : p = dj.peer
    · subst hp
      simp only [if_true, decide_true]
      omega
    · simp only [if_neg hp, Ne.symm hp, decide_false, Bool.false_eq_true, if_false]
      omega
  · intro p
    simp only [DialLimiter.addActive, update_apply]
    split
    · omega
    · exact h.cap p

/-- The loop of `freePeerToken` starts at most one job, with the token it found free. -/
theorem Ledger.freePeerLoop {p : PeerID} (h : Ledger hand s) (hwl : ∀ j ∈ wl, j.peer = p)
    (hroom : s.activePerPeer p < s.perPeerLimit) : Ledger hand (freePeerLoop p wl s) := by
  induction wl generalizing s with
  | nil => exact h
  | cons next wl ih =>
    have htail : ∀ j ∈ wl, j.peer = p := fun j hj => hwl j (mem_cons_of_mem _ hj)
    have hlook : Ledger hand (s.setWaitlist p wl).elapse := (h.setWaitlist p htail).elapse
    have hsame := same_elapse (s.setWaitlist p wl)
    have hroom' : (s.setWaitlist p wl).elapse.activePerPeer p <
        (s.setWaitlist p wl).elapse.perPeerLimit := by
      rw [hsame.activePerPeer, hsame.perPeerLimit]
      exact hroom
    rw [freePeerLoop]
    split
    · exact ih hlook htail hroom'
    apply addCheckFdLimit
    apply hlook.addActive
    rw [hwl next mem_cons_self]
    exact hroom'

theorem Ledger.freePeerToken (h : Ledger (dj :: hand) s) : Ledger hand (s.freePeerToken dj) := by
  have hcap := h.cap dj.peer
  have hfree : Ledger hand (s.addActive dj.peer (-1)) := by
    refine ⟨h.fd, ?_, ?_, h.wants, h.home⟩
    · intro p
      have := h.active p
      rw [countP_cons] at this
      simp only [DialLimiter.addActive, update_apply]
      by_cases hp : p = dj.peer
      · subst hp
        simp only [decide_true, if_true] at this ⊢
        omega
      · simp only [if_neg hp, Ne.symm hp, decide_false, Bool.false_eq_true, if_false] at this ⊢
        omega
    · intro p
      have := h.cap p
      simp only [DialLimiter.addActive, update_apply]
      split
      · omega
      · exact this
  apply hfree.freePeerLoop _ (h.home dj.peer)
  show update s.activePerPeer dj.peer (s.activePerPeer dj.peer + -1) dj.peer < _
  rw [update_self]
  change s.activePerPeer dj.peer + -1 < s.perPeerLimit
  omega

/-- The queue without its first job, which then is in hand. -/
theorem Ledger.pop {next : DialJob} {rest : List DialJob} (h : Ledger hand s)
    (hq : s.waitingOnFd = next :: rest) : Ledger (next :: hand) { s with waitingOnFd := rest } := by
  refine ⟨h.fd, ?_, h.cap, ?_, h.home⟩
  · intro p
    rw [h.active p, hq]
    simp only [countP_cons]
    omega
  · intro j hj
    apply h.wants
    rw [hq]
    exact mem_cons_of_mem _ hj

theorem Ledger.freeFDLoop (h : Ledger hand s) : Ledger hand s.freeFDLoop := by
  fun_induction DialLimiter.freeFDLoop s with
  | case1 s hq => exact h
  | case2 s next rest hq s' hcancelled ih =>
    apply ih
    apply freePeerToken
    exact (h.pop hq).elapse
  | case3 s next rest hq s' hcancelled =>
    have hpop : Ledger (next :: hand) s' := (h.pop hq).elapse
    have hnext : next.fd = true := h.wants next (by rw [hq]; exact mem_cons_self)
    refine ⟨?_, ?_, hpop.cap, hpop.wants, hpop.home⟩
    · show s'.fdConsuming + 1 = ((next :: s'.executing).countP DialJob.fd : Nat)
      rw [hpop.fd, countP_cons_of_pos hnext]
      omega
    · intro p
      show s'.activePerPeer p = _
      rw [hpop.active p]
      simp only [execute, countP_cons]
      omega

theorem Ledger.settle (h : Ledger hand s) : Ledger hand s.settle :=
  h.of_same ⟨rfl, rfl, rfl, rfl, rfl, rfl⟩ h.home

/-- A dial that has finished, before it gives its tokens back. -/
theorem Ledger.finished (h : Ledger [] s) (hdj : dj ∈ s.executing) (ends : List (List Ctx)) :
    Ledger [dj] { s with
      executing := s.executing.erase dj
      ends := ends
      fdConsuming := if shouldConsumeFd dj.addr then s.fdConsuming - 1 else s.fdConsuming } := by
  have hperm := perm_cons_erase hdj
  refine ⟨?_, ?_, h.cap, h.wants, h.home⟩
  · have hcount := hperm.countP_eq DialJob.fd
    rw [countP_cons] at hcount
    have := h.fd
    have hfd : dj.fd = shouldConsumeFd dj.addr := rfl
    rw [hfd] at hcount
    dsimp only
    split
    · rename_i hconsume
      rw [if_pos hconsume] at hcount
      omega
    · rename_i hconsume
      rw [if_neg hconsume] at hcount
      omega
  · intro p
    have hcount := hperm.countP_eq fun j => decide (j.peer = p)
    have := h.active p
    rw [countP_cons] at hcount
    simp only [countP_cons] at this ⊢
    omega

theorem ledger_step (h : Ledger [] s) (op : Op) : Ledger [] (s.step op) := by
  cases op with
  | addDialJob dj =>
    simp only [step, addCheckPeerLimit]
    split
    · apply h.setWaitlist
      exact forall_mem_append.mpr ⟨h.home _, forall_mem_singleton.mpr rfl⟩
    · rename_i hroom
      apply Ledger.addCheckFdLimit
      exact h.addActive (Int.not_le.mp hroom)
  | clearAllPeerDials p =>
    have hsame : SameTokens s (s.clearAllPeerDials p) := ⟨rfl, rfl, rfl, rfl, rfl, rfl⟩
    apply h.of_same hsame
    intro q j hj
    apply h.home q j
    simp only [waitlist, clearAllPeerDials, Table.get_erase] at hj ⊢
    split at hj
    · exact absurd hj not_mem_nil
    · exact hj
  | finished dj ends =>
    simp only [step]
    split
    · rename_i hdj
      have hfin := h.finished hdj ends
      apply Ledger.settle
      apply Ledger.freePeerToken
      split
      · rename_i hconsume
        rw [if_pos hconsume] at hfin
        exact hfin.freeFDLoop
      · rename_i hconsume
        rw [if_neg hconsume] at hfin
        exact hfin
    · exact h
  | cancel ctx => exact h.of_same ⟨rfl, rfl, rfl, rfl, rfl, rfl⟩ h.home

theorem ledger_new (fdLimit perPeerLimit : Nat) :
    Ledger [] (newDialLimiterWithParams fdLimit perPeerLimit) where
  fd := rfl
  active _ := rfl
  cap _ := Int.natCast_nonneg _
  wants _ hj := absurd hj not_mem_nil
  home _ _ hj := absurd hj not_mem_nil

variable {ok : DialLimiter → Op → Prop} {perPeerLimit : Nat} {fdLimit : Nat}

/-- In every run `fdConsuming` is the number of dials with a descriptor, and no peer
has more dials than its limit. -/
theorem counters_run
    (hr : Reach step ok (newDialLimiterWithParams fdLimit perPeerLimit) s) : Ledger [] s := by
  apply Reach.invariant (ledger_new fdLimit perPeerLimit) _ hr
  intro t op _ _ h
  exact ledger_step h op

theorem Ledger.executing_le (h : Ledger [] s) (p : PeerID) :
    s.executing.countP (·.peer = p) ≤ s.perPeerLimit := by
  have hactive := h.active p
  have hcap := h.cap p
  omega

/-! ## The descriptor limit -/

def Within (s : DialLimiter) : Prop := s.fdConsuming ≤ s.fdLimit

/-- The waiting lists can only shrink and contexts only end; the contexts that end
later are among those that were to end. -/
structure Shrinks (s s' : DialLimiter) : Prop where
  fdConsuming : s'.fdConsuming = s.fdConsuming
  fdLimit : s'.fdLimit = s.fdLimit
  waitingOnFd : s'.waitingOnFd = s.waitingOnFd
  waitlist : ∀ p, ∀ j ∈ s'.waitlist p, j ∈ s.waitlist p
  done : ∀ x ∈ s.done, x ∈ s'.done
  ends : ∀ x ∈ s'.done ++ s'.ends.flatten, x ∈ s.done ++ s.ends.flatten

theorem Shrinks.refl : Shrinks s s :=
  ⟨rfl, rfl, rfl, fun _ _ h => h, fun _ h => h, fun _ h => h⟩

variable {s'' : DialLimiter}

theorem Shrinks.trans (h : Shrinks s s') (h' : Shrinks s' s'') : Shrinks s s'' where
  fdConsuming := h'.fdConsuming.trans h.fdConsuming
  fdLimit := h'.fdLimit.trans h.fdLimit
  waitingOnFd := h'.waitingOnFd.trans h.waitingOnFd
  waitlist p j hj := h.waitlist p j (h'.waitlist p j hj)
  done x hx := h'.done x (h.done x hx)
  ends x hx := h.ends x (h'.ends x hx)

theorem shrinks_elapse : Shrinks s s.elapse := by
  unfold elapse
  split
  · exact .refl
  rename_i e ends hends
  refine ⟨rfl, rfl, rfl, fun _ _ h => h, fun x hx => mem_append_right e hx, ?_⟩
  intro x hx
  rw [hends, flatten_cons]
  simp only [mem_append] at hx ⊢
  tauto

theorem shrinks_setWaitlist {p : PeerID} {wl : List DialJob} (h : ∀ j ∈ wl, j ∈ s.waitlist p) :
    Shrinks s (s.setWaitlist p wl) := by
  refine ⟨rfl, rfl, rfl, ?_, fun _ hx => hx, fun _ hx => hx⟩
  intro q j hj
  rw [waitlist_setWaitlist] at hj
  split at hj
  · rename_i hq
    rw [hq]
    exact h j hj
  · exact hj

theorem shrinks_addActive (d : Int) : Shrinks s (s.addActive p d) :=
  ⟨rfl, rfl, rfl, fun _ _ h => h, fun _ h => h, fun _ h => h⟩

theorem shrinks_execute : Shrinks s (s.execute dj) :=
  ⟨rfl, rfl, rfl, fun _ _ h => h, fun _ h => h, fun _ h => h⟩

/-- No job of the list is going to need a descriptor. -/
def Heirless (s : DialLimiter) (wl : List DialJob) : Prop :=
  ∀ n ∈ wl, n.ctx ∈ s.done ∨ n.fd = false

theorem Heirless.mono {wl : List DialJob} (h : s.Heirless wl) (hs : Shrinks s s') : s'.Heirless wl :=
  fun n hn => (h n hn).imp_left (hs.done n.ctx)

/-- The peer token of a cancelled job goes to a job without a descriptor, or to none. -/
theorem shrinks_freePeerLoop (hw : s.waitlist p = wl) (h : s.Heirless wl) :
    Shrinks s (freePeerLoop p wl s) := by
  induction wl generalizing s with
  | nil => exact .refl
  | cons next wl ih =>
    have hpop : Shrinks s (s.setWaitlist p wl).elapse := by
      refine (shrinks_setWaitlist ?_).trans shrinks_elapse
      intro j hj
      rw [hw]
      exact mem_cons_of_mem _ hj
    have h' := h.mono hpop
    rw [freePeerLoop]
    split
    · refine hpop.trans (ih ?_ fun n hn => h' n (mem_cons_of_mem _ hn))
      rw [waitlist_elapse, waitlist_setWaitlist, if_pos rfl]
    · rename_i hlive
      have hfd : shouldConsumeFd next.addr = false := by
        refine (h' next mem_cons_self).resolve_left ?_
        simpa only [cancelled, decide_eq_true_eq] using hlive
      refine hpop.trans ((shrinks_addActive next.peer 1).trans ?_)
      unfold addCheckFdLimit
      rw [if_neg (by rw [hfd]; exact Bool.false_ne_true)]
      exact shrinks_execute

theorem shrinks_freePeerToken (h : s.Heirless (s.waitlist dj.peer)) :
    Shrinks s (s.freePeerToken dj) :=
  (shrinks_addActive dj.peer (-1)).trans (shrinks_freePeerLoop dj.peer _ rfl h)

theorem within_addCheckFdLimit (h : s.Within) : (s.addCheckFdLimit dj).Within := by
  unfold addCheckFdLimit
  split
  · split
    · exact h
    · rename_i hroom
      show s.fdConsuming + 1 ≤ s.fdLimit
      omega
  · exact h

theorem within_freePeerLoop (h : s.Within) : (freePeerLoop p wl s).Within := by
  induction wl generalizing s with
  | nil => exact h
  | cons next wl ih =>
    have hsame := same_elapse (s.setWaitlist p wl)
    have hlook : (s.setWaitlist p wl).elapse.Within := by
      rw [Within, hsame.fdConsuming, hsame.fdLimit]
      exact h
    rw [freePeerLoop]
    split
    · exact ih hlook
    · apply within_addCheckFdLimit
      exact hlook

theorem within_freePeerToken (h : s.Within) : (s.freePeerToken dj).Within :=
  within_freePeerLoop dj.peer _ h

/-- The cancelled jobs at the head of the queue, when the contexts `gone` are or
come to an end, have no heirs. -/
def HeadHeirless (s : DialLimiter) (gone : List Ctx) : Prop :=
  ∀ c ∈ s.waitingOnFd.takeWhile (·.ctx ∈ gone), s.Heirless (s.waitlist c.peer)

instance (s : DialLimiter) (gone : List Ctx) : Decidable (s.HeadHeirless gone) :=
  inferInstanceAs (Decidable (∀ c ∈ _, ∀ n ∈ _, _ ∨ _))

/-- One descriptor is free, and the loop hands out no more than that one. -/
theorem within_freeFDLoop {gone : List Ctx} (hfree : s.fdConsuming + 1 ≤ s.fdLimit)
    (hgone : ∀ x ∈ s.done ++ s.ends.flatten, x ∈ gone) (h : s.HeadHeirless gone) :
    s.freeFDLoop.Within := by
  fun_induction freeFDLoop s with
  | case1 s hq =>
    show s.fdConsuming ≤ s.fdLimit
    omega
  | case2 s next rest hq s' hcancelled ih =>
    have hpop : Shrinks { s with waitingOnFd := rest } s' := shrinks_elapse
    have hnext : next.ctx ∈ s'.done := of_decide_eq_true hcancelled
    have hhead : next.ctx ∈ gone := hgone _ (hpop.ends _ (mem_append_left _ hnext))
    have htake : s.waitingOnFd.takeWhile (fun c => decide (c.ctx ∈ gone)) =
        next :: rest.takeWhile fun c => decide (c.ctx ∈ gone) := by
      rw [hq, takeWhile_cons, if_pos (decide_eq_true hhead)]
    have hheir : s.Heirless (s.waitlist next.peer) := h next (by rw [htake]; exact mem_cons_self)
    have hheir' : s'.Heirless (s'.waitlist next.peer) := by
      intro n hn
      exact (hheir n (hpop.waitlist _ n hn)).imp_left (hpop.done n.ctx)
    have hfreed : Shrinks { s with waitingOnFd := rest } (s'.freePeerToken next) :=
      hpop.trans (shrinks_freePeerToken hheir')
    apply ih
    · rw [hfreed.fdConsuming, hfreed.fdLimit]
      exact hfree
    · intro x hx
      exact hgone x (hfreed.ends x hx)
    · intro c hc n hn
      rw [hfreed.waitingOnFd] at hc
      have hc' : c ∈ s.waitingOnFd.takeWhile fun c => decide (c.ctx ∈ gone) := by
        rw [htake]
        exact mem_cons_of_mem _ hc
      exact (h c hc' n (hfreed.waitlist _ n hn)).imp_left (hfreed.done n.ctx)
  | case3 s next rest hq s' hcancelled =>
    have hsame := same_elapse { s with waitingOnFd := rest }
    rw [hsame.fdConsuming, hsame.fdLimit]
    exact hfree

/-- When a dial with a descriptor finishes, no cancelled job at the head of the queue
leaves its peer token to a job that needs a descriptor too. -/
def NoHeir (s : DialLimiter) : Op → Prop
  | .finished dj ends => dj.fd = true → s.HeadHeirless (s.done ++ ends.flatten)
  | _ => True

instance (s : DialLimiter) (op : Op) : Decidable (s.NoHeir op) := by
  cases op <;> unfold NoHeir <;> infer_instance

theorem within_step (h : s.Within) {op : Op} (hop : s.NoHeir op) : (s.step op).Within := by
  cases op with
  | addDialJob dj =>
    simp only [step, addCheckPeerLimit]
    split
    · exact h
    · apply within_addCheckFdLimit
      exact h
  | clearAllPeerDials p => exact h
  | finished dj ends =>
    simp only [step]
    split
    · show (finishedDial _ dj).Within
      apply within_freePeerToken
      split
      · rename_i hconsume
        refine within_freeFDLoop ?_ (fun _ hx => hx) (hop hconsume)
        · show s.fdConsuming - 1 + 1 ≤ (s.fdLimit : Int)
          have : s.fdConsuming ≤ s.fdLimit := h
          omega
      · exact h
    · exact h
  | cancel ctx => exact h

/-! ## The limits do not change -/

def SameLimits (s s' : DialLimiter) : Prop :=
  s'.fdLimit = s.fdLimit ∧ s'.perPeerLimit = s.perPeerLimit

theorem SameLimits.trans (h : SameLimits s s') (h' : SameLimits s' s'') :
    SameLimits s s'' :=
  ⟨h'.1.trans h.1, h'.2.trans h.2⟩

theorem SameTokens.limits (h : SameTokens s s') : SameLimits s s' := ⟨h.fdLimit, h.perPeerLimit⟩

section

variable (s : DialLimiter)

theorem limits_addCheckFdLimit :
    SameLimits s (s.addCheckFdLimit dj) := by
  unfold addCheckFdLimit
  split
  · split <;> exact ⟨rfl, rfl⟩
  · exact ⟨rfl, rfl⟩

theorem limits_freePeerLoop : SameLimits s (freePeerLoop p wl s) := by
  induction wl generalizing s with
  | nil => exact ⟨rfl, rfl⟩
  | cons next wl ih =>
    have hlook : SameLimits s (s.setWaitlist p wl).elapse := (same_elapse (s.setWaitlist p wl)).limits
    rw [freePeerLoop]
    split
    · exact hlook.trans (ih _)
    · exact hlook.trans (limits_addCheckFdLimit (addActive _ next.peer 1))

theorem limits_freePeerToken (dj : DialJob) : SameLimits s (s.freePeerToken dj) :=
  limits_freePeerLoop dj.peer _ (s.addActive dj.peer (-1))

theorem limits_freeFDLoop : SameLimits s s.freeFDLoop := by
  fun_induction freeFDLoop s with
  | case1 s hq => exact ⟨rfl, rfl⟩
  | case2 s next rest hq s' hcancelled ih =>
    have hlook : SameLimits s s' := (same_elapse { s with waitingOnFd := rest }).limits
    exact hlook.trans ((limits_freePeerToken s' next).trans ih)
  | case3 s next rest hq s' hcancelled => exact (same_elapse { s with waitingOnFd := rest }).limits

theorem limits_finishedDial (dj : DialJob) : SameLimits s (s.finishedDial dj) := by
  unfold finishedDial
  split
  · have hloop : SameLimits s s.freeFDToken :=
      limits_freeFDLoop { s with fdConsuming := s.fdConsuming - 1 }
    exact hloop.trans (limits_freePeerToken _ dj)
  · exact limits_freePeerToken s dj

theorem limits_step (op : Op) : SameLimits s (s.step op) := by
  cases op with
  | addDialJob dj =>
    simp only [step, addCheckPeerLimit]
    split
    · exact ⟨rfl, rfl⟩
    · exact limits_addCheckFdLimit (s.addActive dj.peer 1)
  | clearAllPeerDials p => exact ⟨rfl, rfl⟩
  | finished dj ends =>
    simp only [step]
    split
    · exact limits_finishedDial { s with executing := s.executing.erase dj, ends } dj
    · exact ⟨rfl, rfl⟩
  | cancel ctx => exact ⟨rfl, rfl⟩

end

theorem limits_run {init : DialLimiter} (hr : Reach step ok init s) :
    SameLimits init s := by
  apply Reach.invariant ⟨rfl, rfl⟩ _ hr
  intro t op _ _ h
  exact h.trans (limits_step t op)

/-! ## Runs -/

theorem within_run
    (hr : Reach step NoHeir (newDialLimiterWithParams fdLimit perPeerLimit) s) : s.Within := by
  have hinit : (newDialLimiterWithParams fdLimit perPeerLimit).Within := Int.natCast_nonneg fdLimit
  apply Reach.invariant hinit _ hr
  intro t op _ hop h
  exact within_step h hop

/-- In every run in which no finished dial finds an heir, at most `fdLimit` dials have
a descriptor, as many as `fdConsuming` says, and at most `perPeerLimit` dials are to
one peer. -/
theorem dial_limits_kept {fdLimit perPeerLimit : Nat}
    (hr : Reach step NoHeir (newDialLimiterWithParams fdLimit perPeerLimit) s) :
    s.executing.countP DialJob.fd ≤ fdLimit ∧ s.fdConsuming = s.executing.countP DialJob.fd ∧
      ∀ p, s.executing.countP (·.peer = p) ≤ perPeerLimit := by
  have hledger := counters_run hr
  have hwithin := within_run hr
  obtain ⟨hfd, hpeer⟩ := limits_run hr
  refine ⟨?_, hledger.fd, ?_⟩
  · rw [Within, hledger.fd, hfd] at hwithin
    exact Int.ofNat_le.mp hwithin
  · intro p
    have := hledger.executing_le p
    rw [hpeer] at this
    exact this

/-- A dial of the peer `p` over TCP. -/
def tcpJob (ctx : Ctx) : DialJob := ⟨[⟨4, [127, 0, 0, 1]⟩, ⟨6, [0, p.toUInt8]⟩], p, ctx⟩

/-- With one descriptor and one dial to a peer: the peer 1 dials, a job of the peer 2
waits for the descriptor, a second one for the peer, and one of the peer 3 for the
descriptor. -/
def queued : DialLimiter :=
  ((((newDialLimiterWithParams 1 1).step (.addDialJob (tcpJob 1 1))).step
    (.addDialJob (tcpJob 2 2))).step (.addDialJob (tcpJob 2 3))).step (.addDialJob (tcpJob 3 4))

theorem queued_reach : Reach step NoHeir (newDialLimiterWithParams 1 1) queued := by
  refine .step (Op.addDialJob (tcpJob 3 4)) (.step (Op.addDialJob (tcpJob 2 3))
    (.step (.addDialJob (tcpJob 2 2)) (.step (Op.addDialJob (tcpJob 1 1)) .init ?_) ?_) ?_) ?_
  all_goals exact trivial

/-- The first dial of `queued` finishes, and the next one gets its descriptor. -/
theorem dial_limits_queued :
    let s := queued.step (.finished (tcpJob 1 1) [])
    s.executing.countP DialJob.fd ≤ 1 ∧ s.fdConsuming = s.executing.countP DialJob.fd ∧
      ∀ p, s.executing.countP (·.peer = p) ≤ 1 :=
  dial_limits_kept (queued_reach.step (.finished (tcpJob 1 1) []) (by decide +kernel))

/-- When the job of the peer 2 that waits for the descriptor is cancelled first, the
descriptor goes both to the other job of the peer 2 and to the job of the peer 3. -/
theorem descriptor_handed_out_twice :
    let s := (queued.step (.cancel 2)).step (.finished (tcpJob 1 1) [])
    s.fdLimit = 1 ∧ s.executing = [tcpJob 3 4, tcpJob 2 3] ∧ s.fdConsuming = 2 ∧
      s.executing.countP DialJob.fd = 2 := by
  decide +kernel

end Dep2p.Swarm.DialLimiter
