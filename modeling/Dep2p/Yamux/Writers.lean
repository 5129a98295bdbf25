import Dep2p.Yamux.SendWindow
import Dep2p.Lib.Reach

/- Several goroutines in `Write` on one stream.

   `Write` calls `write` until everything is sent. Each goroutine runs it on its own;
   what they share is the stream, whose other goroutines (reader, receive loop, closing)
   keep their places in the endpoint. The number of goroutines is not bounded.

   Nothing keeps a second writer from loading the window while the first one has sent
   and not subtracted. Then both send what only one of them may, and the second
   subtraction takes the window below zero. A window update that takes the window past
   its 32 bits does the latter too.

   What is proved:
     1. `Flow.step` — where a goroutine loads the window only when no other is between
        its load and its subtraction, and no update overflows the window, a step keeps
        the balance of what was sent and what was granted.
     2. `writers_within_window` — so in every run of such steps.
     3. `two_writers_overshoot` — two writers that both see the same window.

   Correspondence (Go ↔ Lean):
     `Write` around `write` ↔ `Writing.start`, `Writing.next`, with `write` as in `Endpoint.writeNext` -/
namespace Dep2p.Yamux

open Lib Function List Writer

/-- A goroutine in `Write`: where it is in `write`, and `b[total:]`. -/
structure Writing where
  place : Writer := .idle
  rest : List UInt8 := []

namespace Writing

/-- `Write` enters its loop. -/
def start (w : Writing) (b : List UInt8) : Writing :=
  match w.place with
  | .idle => ⟨if b = [] then .idle else .start b, b⟩
  | _ => w

/-- The place of a goroutine after a step of `write`: when `write` returns what it sent,
`Write` goes on with the rest, and it returns an error at once. -/
def next (w : Writing) (place : Writer) : Writing :=
  match w.place with
  | .sent max =>
    let rest := w.rest.drop max
    ⟨if rest = [] then .idle else .start rest, rest⟩
  | _ => ⟨place, w.rest⟩

end Writing

/-- A stream with the goroutines that write to it. `credited` is history: the sum of
the deltas of the window updates. -/
structure Shared where
  ep : Endpoint
  writers : Nat → Writing := fun _ => {}
  credited : Nat := 0

variable (opening : Bool) (cfg : Config) (id : Nat) (now : Int)

namespace Shared

inductive Act where
  | write (i : Nat) (b : List UInt8)
  | writeNext (i : Nat) (ok : Bool)
  | other (a : Action)

def step (s : Shared) : Act → Shared
  | .write i b =>
    if s.ep.started then
      { s with writers := Function.update s.writers i ((s.writers i).start b) }
    else s
  | .writeNext i ok =>
    let w := s.writers i
    let e := (({ s.ep with writer := w.place } : Endpoint).writeNext ok).1
    { s with
      ep := { e with writer := s.ep.writer }
      writers := Function.update s.writers i (w.next e.writer) }
  -- all data is written by the goroutines above
  | .other (.write _) => s
  | .other a => { s with ep := s.ep.step a, credited := s.credited + s.ep.credit a }

/-- The stream of a session that opened it, or of one that accepts it. -/
def init : Shared :=
  { ep := if opening then .opener cfg id now else .acceptor cfg id now }

/-- The number of data bytes sent. -/
def sent (s : Shared) : Nat := s.ep.accepted.length

/-- What was sent was granted, and the next subtraction of any goroutine leaves the
window at zero or above. -/
structure Within (s : Shared) : Prop where
  granted : s.sent ≤ initialStreamWindow + s.credited
  noWrap : ∀ i max, (s.writers i).place = .sent max → max ≤ s.ep.stream.sendWindow

/-- A goroutine loads the window only when no other is between its load and its
subtraction, and no update takes the window past a `uint32`. -/
def Alone (s : Shared) : Act → Prop
  | .writeNext i _ =>
    (∃ b, (s.writers i).place = .window b) → ∀ j, j ≠ i → (s.writers j).place.holds = false
  | .other a => s.ep.stream.sendWindow + s.ep.credit a < 4294967296
  | .write _ _ => True

/-! ## The invariant -/

structure Flow (s : Shared) : Prop where
  closing : s.ep.writer.closing
  uint32 : s.ep.stream.sendWindow < 4294967296
  one : ∀ i j, (s.writers i).place.holds → (s.writers j).place.holds → i = j
  covered : ∀ i, (s.writers i).place.reserve ≤ s.ep.stream.sendWindow
  /-- A goroutine that is the only one to hold a window owes the difference. -/
  balance : ∀ i, (∀ j, j ≠ i → (s.writers j).place.holds = false) →
    s.sent + s.ep.stream.sendWindow =
      initialStreamWindow + s.credited + (s.writers i).place.unpaid

variable {s : Shared} {i : Nat} {ok : Bool} {j : Nat} {a : Act}

theorem flow_init : Flow (init opening cfg id now) := by
  have hwin : (init opening cfg id now).ep.stream.sendWindow = initialStreamWindow := by
    cases opening with
    | true | false => rfl
  have hsent : (init opening cfg id now).sent = 0 := by
    cases opening with
    | true | false => rfl
  refine ⟨?_, ?_, ?_, fun _ => Nat.zero_le _, ?_⟩
  · cases opening with
    | true | false => rfl
  · rw [hwin]
    decide
  · intro i j hi
    cases hi
  · intro i _
    rw [hwin, hsent, zero_add]
    rfl

theorem Flow.others_free (h : Flow s) (hi : (s.writers i).place.holds) (hj : j ≠ i) :
    (s.writers j).place.holds = false := by
  rw [Bool.eq_false_iff]
  intro hh
  exact hj (h.one j i hh hi)

theorem Flow.within (h : Flow s) : Within s := by
  refine ⟨?_, ?_⟩
  · by_cases hex : ∃ i, (s.writers i).place.holds
    · obtain ⟨i, hi⟩ := hex
      have hbal := h.balance i fun j hj => h.others_free hi hj
      have hle := (s.writers i).place.unpaid_le_reserve.trans (h.covered i)
      omega
    · have hfree : ∀ j, (s.writers j).place.holds = false := fun j =>
        Bool.eq_false_iff.mpr fun hj => hex ⟨j, hj⟩
      have hbal := h.balance 0 fun j _ => hfree j
      rw [unpaid_of_not_holds (hfree 0)] at hbal
      omega
  · intro i max hi
    have hcov := h.covered i
    rw [hi] at hcov
    exact hcov

/-- A place that holds no window comes or goes. -/
theorem Flow.idle_place (h : Flow s) {w : Writing} (hold : (s.writers i).place.holds = false)
    (hw : w.place.holds = false) : Flow { s with writers := update s.writers i w } := by
  have hplace : ∀ j, ((update s.writers i w j).place.holds = (s.writers j).place.holds) ∧
      (update s.writers i w j).place.reserve = (s.writers j).place.reserve ∧
      (update s.writers i w j).place.unpaid = (s.writers j).place.unpaid := by
    intro j
    by_cases hj : j = i
    · subst hj
      rw [update_self, hold, hw, reserve_of_not_holds hold,
        reserve_of_not_holds hw, unpaid_of_not_holds hold,
        unpaid_of_not_holds hw]
      exact ⟨rfl, rfl, rfl⟩
    · rw [update_of_ne hj]
      exact ⟨rfl, rfl, rfl⟩
  refine ⟨h.closing, h.uint32, ?_, ?_, ?_⟩
  · intro j k hj hk
    rw [(hplace j).1] at hj
    rw [(hplace k).1] at hk
    exact h.one j k hj hk
  · intro j
    rw [(hplace j).2.1]
    exact h.covered j
  · intro j hfree
    rw [(hplace j).2.2]
    refine h.balance j fun k hk => ?_
    rw [← (hplace k).1]
    exact hfree k hk

theorem Flow.write (h : Flow s) (b : List UInt8) : Flow (s.step (.write i b)) := by
  simp only [step]
  split
  · cases hp : (s.writers i).place with
    | idle =>
      apply h.idle_place
      · rw [hp]
        rfl
      · unfold Writing.start
        rw [hp]
        dsimp only
        split <;> rfl
    | _ =>
      have hsame : (s.writers i).start b = s.writers i := by
        unfold Writing.start
        rw [hp]
      rw [hsame, update_eq_self]
      exact h
  · exact h

/-! ## A step of a writer -/

/-- `Write` going on with the rest holds no window, as the `write` that returned. -/
theorem next_place (e : Endpoint) (w : Writing) (hw : e.writer = w.place) :
    let e' := (e.writeNext ok).1
    (w.next e'.writer).place.holds = e'.writer.holds ∧
      (w.next e'.writer).place.reserve = e'.writer.reserve ∧
      (w.next e'.writer).place.unpaid = e'.writer.unpaid := by
  unfold Writing.next
  cases hp : w.place with
  | sent max =>
    rw [hp] at hw
    simp only [Endpoint.writeNext, hw]
    split <;> exact ⟨rfl, rfl, rfl⟩
  | _ => exact ⟨rfl, rfl, rfl⟩

/-- Only the load of the window makes a writer hold it, and only what it held makes it
owe something. -/
theorem holds_next (e : Endpoint) (h : e.writer.holds = false) :
    ((e.writeNext ok).1.writer.holds → ∃ b, e.writer = .window b) ∧
      (e.writeNext ok).1.writer.unpaid = 0 := by
  unfold Endpoint.writeNext
  cases hw : e.writer with
  | flags _ _ | send _ _ _ | sent _ =>
    rw [hw] at h
    cases h
  | window b =>
    refine ⟨fun _ => ⟨b, rfl⟩, ?_⟩
    dsimp only
    split
    · cases ok with
      | true | false => rfl
    · rfl
  | idle =>
    rw [hw]
    refine ⟨fun hh => ?_, rfl⟩
    cases hh
  | start b =>
    dsimp only
    split
    all_goals
      refine ⟨fun hh => ?_, rfl⟩
      cases hh
  | closeFlags cleanup =>
    refine ⟨fun hh => ?_, rfl⟩
    cases hh
  | closeSend flags cleanup =>
    dsimp only
    cases cleanup with
    | true | false =>
      split
      all_goals
        refine ⟨fun hh => ?_, rfl⟩
        cases hh
  | cleanup =>
    refine ⟨fun hh => ?_, rfl⟩
    cases hh

theorem Flow.writeNext (h : Flow s) (hok : Alone s (.writeNext i ok)) :
    Flow (s.step (.writeNext i ok)) := by
  -- the endpoint as goroutine `i` sees it
  let e : Endpoint := { s.ep with writer := (s.writers i).place }
  have hsends : Endpoint.Sends e (e.writeNext ok).1 :=
    Endpoint.writeNext_sends h.uint32 (h.covered i)
  obtain ⟨hholds, hreserve, hunpaid⟩ := next_place e (s.writers i) rfl
  -- who holds a window afterwards is alone
  have halone : (e.writeNext ok).1.writer.holds → ∀ j, j ≠ i → (s.writers j).place.holds = false := by
    intro hnew j hj
    by_cases hold : (s.writers i).place.holds
    · exact h.others_free hold hj
    · exact hok ((holds_next e (Bool.eq_false_iff.mpr hold)).1 hnew) j hj
  have hbal := hsends.balance
  change (e.writeNext ok).1.accepted.length + (e.writeNext ok).1.stream.sendWindow +
    (s.writers i).place.unpaid = s.sent + s.ep.stream.sendWindow + _ at hbal
  have hself : ((s.step (.writeNext i ok)).writers i).place =
      ((s.writers i).next (e.writeNext ok).1.writer).place := by
    simp only [step, update_self]
    rfl
  have hother : ∀ j, j ≠ i → (s.step (.writeNext i ok)).writers j = s.writers j := by
    intro j hj
    simp [step, update_of_ne hj]
  refine ⟨h.closing, lt_of_le_of_lt hsends.shrinks h.uint32, ?_, ?_, ?_⟩
  · intro j k hj hk
    by_cases hji : j = i
    · by_cases hki : k = i
      · rw [hji, hki]
      · rw [hji, hself, hholds] at hj
        rw [hother k hki, halone hj k hki] at hk
        cases hk
    · by_cases hki : k = i
      · rw [hki, hself, hholds] at hk
        rw [hother j hji, halone hk j hji] at hj
        cases hj
      · rw [hother j hji] at hj
        rw [hother k hki] at hk
        exact h.one j k hj hk
  · intro j
    show _ ≤ (e.writeNext ok).1.stream.sendWindow
    by_cases hji : j = i
    · rw [hji, hself, hreserve]
      exact hsends.covered
    · rw [hother j hji]
      by_cases hold : (s.writers i).place.holds
      · rw [reserve_of_not_holds (h.others_free hold hji)]
        exact Nat.zero_le _
      · rw [hsends.window (Bool.eq_false_iff.mpr hold)]
        exact h.covered j
  · intro j hfree
    show (e.writeNext ok).1.accepted.length + (e.writeNext ok).1.stream.sendWindow = _ + s.credited + _
    by_cases hji : j = i
    · subst hji
      have hold := h.balance j fun k hk => by
        rw [← hother k hk]
        exact hfree k hk
      rw [hself]
      omega
    · rw [hother j hji]
      have hfreei := hfree i (symm hji)
      rw [hself] at hfreei
      have hpaid := unpaid_of_not_holds hfreei
      by_cases hi : (s.writers i).place.holds
      · -- goroutine `i` held the window and has paid
        have hold := h.balance i fun k hk => h.others_free hi hk
        rw [unpaid_of_not_holds (h.others_free hi hji)]
        omega
      · have hi := Bool.eq_false_iff.mpr hi
        have hold := h.balance j fun k hk => by
          by_cases hki : k = i
          · rw [hki]
            exact hi
          · rw [← hother k hki]
            exact hfree k hk
        rw [unpaid_of_not_holds hi] at hbal
        omega

/-! ## Other steps and whole runs -/

theorem Flow.other (h : Flow s) {a : Action} (hok : Alone s (.other a)) :
    Flow (s.step (.other a)) := by
  by_cases ha : ∃ b, a = .write b
  · obtain ⟨b, rfl⟩ := ha
    exact h
  · have hstep : s.step (.other a) =
        { s with ep := s.ep.step a, credited := s.credited + s.ep.credit a } := by
      cases a with
      | write b => exact absurd ⟨b, rfl⟩ ha
      | _ => rfl
    rw [hstep]
    have hr := Endpoint.step_receives h.uint32 h.closing fun b hb => ha ⟨b, hb⟩
    have hwin : (s.ep.step a).stream.sendWindow = s.ep.stream.sendWindow + s.ep.credit a := by
      rw [hr.sendWindow, add32_of_lt hok]
      split
      · omega
      · rfl
    refine ⟨hr.closing h.closing, ?_, h.one, ?_, ?_⟩
    · dsimp only
      rw [hwin]
      exact hok
    · intro i
      rw [hwin]
      exact (h.covered i).trans (Nat.le_add_right _ _)
    · intro i hfree
      have hold := h.balance i hfree
      simp only [sent] at hold ⊢
      rw [hr.accepted]
      omega

theorem Flow.step (h : Flow s) (hok : Alone s a) : Flow (s.step a) := by
  cases a with
  | write i b => exact h.write b
  | writeNext i ok => exact h.writeNext hok
  | other a => exact h.other hok

/-- In every run in which the writers take turns from their load of the window to their
subtraction, and no update overflows the window, what is sent stays within what was
granted and the window never wraps. -/
theorem writers_within_window {s : Shared} (h : Reach step Alone (init opening cfg id now) s) :
    Within s := by
  have hflow : Flow s := h.invariant (flow_init opening cfg id now) fun s a _ hok hs => hs.step hok
  exact hflow.within

/-- A goroutine opens the stream: the first window update is sent. -/
def opened : List Act := replicate 4 (.other (.readNext ⟨0, 0, false⟩ true))

/-- One goroutine writes a byte; when it is done another writes two, up to its
subtraction. -/
def turning : List Act :=
  opened ++ [.write 0 [7]] ++ replicate 5 (.writeNext 0 true) ++ [.write 1 [8, 9]] ++
    replicate 4 (.writeNext 1 true)

def turns : Shared := turning.foldl step (init true Config.default 1 0)

theorem alone_of_idle (h : ∀ j, j ≠ i → (s.writers j).place = .idle) : Alone s (.writeNext i ok) := by
  intro _ j hj
  rw [h j hj]
  rfl

/-- A step of one goroutine leaves the others where they are. -/
theorem writers_step (hw : ∀ b, a ≠ .write j b) (hn : ∀ ok, a ≠ .writeNext j ok) :
    (s.step a).writers j = s.writers j := by
  cases a with
  | write i b =>
    have hj : j ≠ i := fun hj => hw b (by rw [hj])
    simp only [step]
    split
    · exact update_of_ne hj _ _
    · rfl
  | writeNext i ok =>
    have hj : j ≠ i := fun hj => hn ok (by rw [hj])
    exact update_of_ne hj _ _
  | other a =>
    cases a with
    | _ => rfl

theorem turns_reached : Reach step Alone (init true .default 1 0) turns := by
  have hbeyond : ∀ (s : Shared) (i : Nat) (b : List UInt8) (j : Nat), i < 2 →
      (s.step (.write i b)).writers (j + 2) = s.writers (j + 2) ∧
        (s.step (.writeNext i true)).writers (j + 2) = s.writers (j + 2) := by
    intro s i b j hi
    constructor
    · apply writers_step
      · intro _ h
        cases h
        omega
      · intro _ h
        cases h
    · apply writers_step
      · intro _ h
        cases h
      · intro _ h
        cases h
        omega
  apply Reach.init.foldl
  refine ⟨?_, ?_, ?_, ?_, trivial, ?_, ?_, ?_, ?_, ?_, trivial, ?_, ?_, ?_, ?_, trivial⟩
  iterate 4
    · show (_ : Nat) < _
      decide +kernel
  all_goals
    apply alone_of_idle
    intro j hj
    rcases j with _ | _ | j
    · first
      | exact absurd rfl hj
      | decide +kernel
    · first
      | exact absurd rfl hj
      | decide +kernel
    · simp only [hbeyond _ 0 [7], hbeyond _ 1 [8, 9], Nat.zero_lt_two, one_lt_two]
      rfl

theorem writers_within_window_turns : Within turns ∧ turns.sent = 3 :=
  ⟨writers_within_window true .default 1 0 turns_reached, by decide +kernel⟩

/-! ## Two writers at once, and an update too many -/

/-- Both goroutines load the window before either of them sends; one has subtracted. -/
def racing (b : List UInt8) : List Act :=
  [.write 0 b, .write 1 b, .writeNext 0 true, .writeNext 1 true, .writeNext 0 true,
    .writeNext 1 true, .writeNext 0 true, .writeNext 1 true, .writeNext 0 true, .writeNext 1 true,
    .writeNext 0 true]

/-- On an open stream that both may write to, nothing in the race depends on what is
written. -/
theorem race_eq {b : List UInt8} (hb : b ≠ []) (hstarted : s.ep.started)
    (hidle : ∀ i, (s.writers i).place = .idle) (hopen : s.ep.stream.writeState = .halfOpen)
    (hstate : s.ep.stream.state = .streamSYNSent) (hwin : s.ep.stream.sendWindow ≠ 0) :
    let r := (racing b).foldl step s
    let max := Stream.maxBody s.ep.cfg s.ep.stream.sendWindow b
    r.ep.accepted = s.ep.accepted ++ b.take max ++ b.take max ∧
      r.ep.stream.sendWindow = sub32 s.ep.stream.sendWindow max ∧
      (r.writers 1).place = .sent max ∧ r.credited = s.credited := by
  simp [racing, step, Writing.start, Writing.next, Endpoint.writeNext, Stream.sendFlags, hb, hstarted,
    hidle, hopen, hstate, hwin]

/-- A configuration whose messages are not shorter than the window. -/
def raceConfig : Config := { Config.default with maxMessageSize := 524288 }

/-- As many bytes as the initial window allows. -/
def windowful : List UInt8 := replicate 262144 0

theorem maxBody_windowful :
    Stream.maxBody raceConfig initialStreamWindow windowful = initialStreamWindow := by
  rw [Stream.maxBody, windowful, length_replicate]
  decide

def openStream : Shared := opened.foldl step (init true raceConfig 1 0)

def raced : Shared := (racing windowful).foldl step openStream

theorem raced_eq :
    raced.sent = 2 * initialStreamWindow ∧ raced.ep.stream.sendWindow = 0 ∧
      (raced.writers 1).place = .sent initialStreamWindow ∧ raced.credited = 0 := by
  have hne : windowful ≠ [] := by
    decide
  have hwin : openStream.ep.stream.sendWindow = initialStreamWindow := by decide +kernel
  have hcfg : openStream.ep.cfg = raceConfig := by decide +kernel
  have hacc : openStream.ep.accepted = [] := by decide +kernel
  obtain ⟨hsent, hleft, hplace, hcred⟩ := race_eq (s := openStream) hne (by decide +kernel)
    (fun i => rfl) (by decide +kernel) (by decide +kernel) (by decide +kernel)
  rw [hwin, hcfg, maxBody_windowful] at hleft hplace
  refine ⟨?_, hleft.trans (by decide), hplace, hcred.trans (by decide +kernel)⟩
  rw [sent, raced, hsent, hacc, hwin, hcfg, length_append, nil_append,
    Stream.length_take_maxBody, maxBody_windowful, two_mul]

/-- A writer has loaded the window and an update takes the window past 32 bits, to zero;
then the writer sends its byte. -/
def flooding : List Act :=
  opened ++ [.write 0 [7]] ++ replicate 3 (.writeNext 0 true) ++
    [.other (.deliver (.windowUpdate {} 4294705152) true), .other (.recvNext 0), .writeNext 0 true]

def flooded : Shared := flooding.foldl step (init true Config.default 1 0)

/-- Two writers send twice what the peer granted, and the second subtraction would take
the window below zero; so would the subtraction of a writer that is overtaken by an
update. -/
theorem two_writers_overshoot :
    raceConfig.verify = none ∧
      Reach step (fun _ _ => True) (init true raceConfig 1 0) raced ∧
      raced.credited = 0 ∧ raced.sent = 2 * initialStreamWindow ∧
      (raced.writers 1).place = .sent initialStreamWindow ∧ raced.ep.stream.sendWindow = 0 ∧
      ¬ Within raced ∧
      Reach step (fun _ _ => True) (init true Config.default 1 0) flooded ∧
      (flooded.writers 0).place = .sent 1 ∧ flooded.ep.stream.sendWindow = 0 ∧
      ¬ Within flooded := by
  obtain ⟨hsent, hwin, hplace, hcred⟩ := raced_eq
  have hrun : ∀ {s t : Shared} (as : List Act), Reach step (fun _ _ => True) s t →
      Reach step (fun _ _ => True) s (as.foldl step t) := fun as h =>
    h.foldl (Reach.admits_of_all (fun _ _ => trivial) as)
  refine ⟨by decide, hrun _ (hrun _ .init), hcred, hsent, hplace, hwin, ?_, hrun _ .init,
    by decide +kernel, by decide +kernel, ?_⟩
  · intro hw
    have hle := hw.granted
    rw [hsent] at hle
    exact absurd hle (by decide)
  · intro hw
    exact absurd (hw.noWrap 0 1 (by decide +kernel)) (by decide +kernel)

end Shared

end Dep2p.Yamux
