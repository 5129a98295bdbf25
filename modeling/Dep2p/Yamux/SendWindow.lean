import Dep2p.Yamux.Endpoint
import Mathlib.Tactic.Linarith

/- The send window.

   A writer loads the window, sends a fragment of at most that size and subtracts it
   afterwards. Between the load and the subtraction it counts on the window it saw
   (`Writer.reserve`), and between the `sendMsg` and the subtraction it owes what it
   sent (`Writer.unpaid`). What is said here is about one writer and one step; the steps
   of other goroutines change the window only by the credit of a window update.

   What is proved:
     1. `writeNext_sends` — a step of a writer whose reserve is covered keeps the
        balance of bytes sent, window and debt, and leaves the reserve covered.
     2. `step_receives` — any other step sends nothing, and changes the window only by the
        credit it takes in. -/
namespace Dep2p.Yamux

open Nat

namespace Writer

/-- What the writer may still subtract from the window. -/
def reserve : Writer → Nat
  | flags _ seen | send _ seen _ => seen
  | sent max => max
  | _ => 0

/-- What the writer has sent and not subtracted. -/
def unpaid : Writer → Nat
  | sent max => max
  | _ => 0

/-- Whether the writer is between its load of the window and its subtraction. -/
def holds : Writer → Bool
  | flags .. | send .. | sent _ => true
  | _ => false

/-- Whether the goroutine is not in `write`. -/
def closing : Writer → Bool
  | idle | closeFlags _ | closeSend .. | cleanup => true
  | _ => false

variable {w : Writer}

theorem unpaid_le_reserve (w : Writer) : w.unpaid ≤ w.reserve := by
  cases w with
  | sent max => exact le_refl max
  | _ => exact zero_le _

theorem reserve_of_not_holds (h : w.holds = false) : w.reserve = 0 := by
  cases w with
  | flags _ _ | send _ _ _ | sent _ => cases h
  | _ => rfl

theorem unpaid_of_not_holds (h : w.holds = false) : w.unpaid = 0 := by
  have hle := w.unpaid_le_reserve
  rw [reserve_of_not_holds h] at hle
  exact le_zero.mp hle

end Writer

namespace Stream

variable (s : Stream) (cfg : Config) (flags : Flags) (delta : Nat) (t : Tuning)

theorem sendWindow_autoTune :
    (s.autoTune cfg flags delta t).1.sendWindow = s.sendWindow := by
  unfold autoTune
  split <;> rfl

theorem maxBody_le_window (window : Nat) (b : List UInt8) : maxBody cfg window b ≤ window := by
  exact (min_le_left _ _).trans (min_le_left _ _)

theorem length_take_maxBody (window : Nat) (b : List UInt8) :
    (b.take (maxBody cfg window b)).length = maxBody cfg window b := by
  rw [List.length_take]
  apply min_eq_left
  exact (min_le_right _ _).trans (mod_le _ _)

end Stream

namespace Endpoint

variable {e : Endpoint} {a : Action} {ok : Bool}

/-- What a step of a writer does to the bytes sent and to the window. -/
structure Sends (e e' : Endpoint) : Prop where
  balance : e'.accepted.length + e'.stream.sendWindow + e.writer.unpaid =
    e.accepted.length + e.stream.sendWindow + e'.writer.unpaid
  covered : e'.writer.reserve ≤ e'.stream.sendWindow
  shrinks : e'.stream.sendWindow ≤ e.stream.sendWindow
  window : e.writer.holds = false → e'.stream.sendWindow = e.stream.sendWindow

variable {e' : Endpoint}

/-- A step that changes neither the window nor what was sent. -/
theorem Sends.of_same (hacc : e'.accepted = e.accepted)
    (hwin : e'.stream.sendWindow = e.stream.sendWindow) (hpaid : e.writer.unpaid = 0)
    (hpaid' : e'.writer.unpaid = 0) (hcov : e'.writer.reserve ≤ e.stream.sendWindow) :
    Sends e e' := by
  refine ⟨?_, ?_, ?_, fun _ => hwin⟩
  · rw [hacc, hwin, hpaid, hpaid']
  · rw [hwin]
    exact hcov
  · exact le_of_eq hwin

theorem writeNext_sends (hlt : e.stream.sendWindow < 4294967296)
    (hcov : e.writer.reserve ≤ e.stream.sendWindow) :
    Sends e (e.writeNext ok).1 := by
  unfold writeNext
  cases hw : e.writer with
  | idle =>
    rw [hw] at hcov
    exact .of_same rfl rfl (by rw [hw]; rfl) (by rw [hw]; rfl) (by rw [hw]; exact hcov)
  | start b =>
    dsimp only
    split <;> (exact .of_same rfl rfl (by rw [hw]; rfl) rfl (zero_le _))
  | window b =>
    dsimp only
    split
    · -- blocked: the next place reserves nothing whether notified or not
      cases ok with
      | true | false => exact .of_same rfl rfl (by rw [hw]; rfl) rfl (zero_le _)
    · exact .of_same rfl rfl (by rw [hw]; rfl) rfl (le_refl _)
  | flags b seen =>
    rw [hw] at hcov
    exact .of_same rfl (e.stream.sendFlags_same.sendWindow) (by rw [hw]; rfl) rfl hcov
  | send b seen flags =>
    rw [hw] at hcov
    dsimp only
    split
    · have hmax := (Stream.maxBody_le_window e.cfg seen b).trans hcov
      refine ⟨?_, hmax, le_refl _, fun _ => rfl⟩
      rw [hw]
      simp only [Writer.unpaid, List.length_append, Stream.length_take_maxBody]
      omega
    · exact .of_same rfl rfl (by rw [hw]; rfl) rfl (zero_le _)
  | sent max =>
    rw [hw] at hcov
    change max ≤ e.stream.sendWindow at hcov
    have hsub := sub32_of_le hlt hcov
    refine ⟨?_, zero_le _, ?_, ?_⟩
    · rw [hw]
      simp only [Writer.unpaid]
      omega
    · simp only [hsub]
      exact sub_le _ _
    · intro hfree
      rw [hw] at hfree
      cases hfree
  | closeFlags cleanup =>
    exact .of_same rfl (e.stream.sendFlags_same.sendWindow) (by rw [hw]; rfl) rfl (zero_le _)
  | closeSend flags cleanup =>
    dsimp only
    cases cleanup with
    | true | false =>
      split <;> (exact .of_same rfl rfl (by rw [hw]; rfl) rfl (zero_le _))
  | cleanup => exact .of_same rfl rfl (by rw [hw]; rfl) rfl (zero_le _)

/-- A step that has nothing to do with sending. -/
structure Aside (e e' : Endpoint) : Prop where
  accepted : e'.accepted = e.accepted
  sendWindow : e'.stream.sendWindow = e.stream.sendWindow
  writer : e'.writer = e.writer

theorem Aside.refl (e : Endpoint) : Aside e e := ⟨rfl, rfl, rfl⟩

theorem Still.aside (h : Still e e') : Aside e e' := ⟨h.accepted, h.windows.sendWindow, h.writer⟩

theorem readNext_aside (e : Endpoint) (t : Tuning) : Aside e (e.readNext t ok).1 := by
  unfold readNext
  cases e.reader with
  | idle => exact .refl e
  | start size | sawClosed size | sawData size =>
    dsimp only
    split <;> exact ⟨rfl, rfl, rfl⟩
  | copy size => exact ⟨rfl, rfl, rfl⟩
  | flags =>
    dsimp only
    split
    · exact ⟨rfl, e.stream.sendFlags_same.sendWindow, rfl⟩
    · exact .refl e
  | grow flags =>
    dsimp only
    split <;> exact ⟨rfl, rfl, rfl⟩
  | tune flags delta => exact ⟨rfl, Stream.sendWindow_autoTune _ _ _ _ _, rfl⟩
  | send flags delta =>
    dsimp only
    split <;> exact ⟨rfl, rfl, rfl⟩

/-- The delta of the window update that a step applies. -/
def credit (e : Endpoint) : Action → Nat
  | .recvNext _ =>
    match e.recv with
    | .credit length => length
    | _ => 0
  | _ => 0

/-- What the steps outside `write` do. -/
structure Receives (e e' : Endpoint) (credit : Nat) : Prop where
  accepted : e'.accepted = e.accepted
  sendWindow : e'.stream.sendWindow = if credit = 0 then e.stream.sendWindow
    else add32 e.stream.sendWindow credit
  closing : e.writer.closing → e'.writer.closing

theorem Aside.receives (h : Aside e e') : Receives e e' 0 := by
  refine ⟨h.accepted, h.sendWindow, ?_⟩
  intro hc
  rw [h.writer]
  exact hc

theorem closeWrite_receives (e : Endpoint) : Receives e e.closeWrite 0 := by
  have hwin := e.stream.lockCloseWrite_same.sendWindow
  unfold closeWrite
  split
  all_goals
    rename_i heq
    rw [heq] at hwin
  · exact ⟨rfl, hwin, fun _ => rfl⟩
  · exact ⟨rfl, hwin, id⟩

theorem recvNext_receives (hlt : e.stream.sendWindow < 4294967296) (newCap : Nat) :
    Receives e (e.recvNext newCap) (e.credit (.recvNext newCap)) := by
  unfold recvNext credit
  cases e.recv with
  | credit length =>
    refine ⟨rfl, ?_, id⟩
    dsimp only [Stream.incrSendWindow]
    split
    · rename_i hzero
      rw [hzero]
      exact mod_eq_of_lt hlt
    · rfl
  | check length body =>
    dsimp only
    split <;> exact ⟨rfl, rfl, id⟩
  | idle | fill _ _ | exceeded _ | failed => exact ⟨rfl, rfl, id⟩

theorem writeNext_receives (hc : e.writer.closing) :
    Receives e (e.writeNext ok).1 0 := by
  unfold writeNext
  cases hw : e.writer with
  | start _ | window _ | flags _ _ | send _ _ _ | sent _ =>
    rw [hw] at hc
    cases hc
  | idle => exact (Aside.refl e).receives
  | closeFlags cleanup => exact ⟨rfl, e.stream.sendFlags_same.sendWindow, fun _ => rfl⟩
  | closeSend flags cleanup =>
    dsimp only
    cases cleanup with
    | true | false =>
      split <;> exact ⟨rfl, rfl, fun _ => rfl⟩
  | cleanup => exact ⟨rfl, rfl, fun _ => rfl⟩

/-- A step outside `write` sends nothing. -/
theorem step_receives (hlt : e.stream.sendWindow < 4294967296) (hc : e.writer.closing)
    (ha : ∀ b, a ≠ .write b) : Receives e (e.step a) (e.credit a) := by
  unfold step act
  cases a with
  | write b => exact absurd rfl (ha b)
  | writeNext ok => exact writeNext_receives hc
  | recvNext newCap => exact recvNext_receives hlt newCap
  | readNext t ok => exact (e.readNext_aside t).receives
  | closeNext ok => exact (e.still_closeNext ok).aside.receives
  | read size =>
    dsimp only
    split
    · exact Aside.receives ⟨rfl, rfl, rfl⟩
    · exact (Aside.refl e).receives
  | closeWrite =>
    dsimp only
    split
    · exact e.closeWrite_receives
    · exact (Aside.refl e).receives
  | deliver f admitted => exact (e.still_deliver f admitted).aside.receives
  | closeRead => exact e.still_closeRead.aside.receives
  | reset => exact e.still_reset.aside.receives

end Endpoint

end Dep2p.Yamux
