import Dep2p.Yamux.Endpoint
import Mathlib.Tactic.Linarith

/- Receive-window credit.

   Every byte a stream may receive was either granted initially or announced in a
   window update, so `cap`, which is what the peer may still send, together with
   what was appended should be the initial window and the sum of the updates. The
   difference is `excess`: credit the stream counts on and the peer never hears of.

   Two steps of `sendWindowUpdate` make it larger. When the window is doubled, the
   buffer is grown a second time and the space gained by the first growth is not
   announced; and a `sendMsg` that gives up leaves the buffer grown. `lostBy` says
   how much a step loses, and `excess_step` that nothing else is ever lost.

   What is proved:
     1. `Window.step` — the window stays a `uint32`, so no counter wraps.
     2. `excess_step` — a step changes the excess by exactly what it loses.
     3. `credit_conserved_iff` — after any run, whatever the peer sends, credit is
        conserved exactly when no step of the run lost any.
     4. `credit_lost_by_doubling` — a run that loses some. -/
namespace Dep2p.Yamux

open List SegmentedBuffer Endpoint

variable (cfg : Config) (s : Stream)

namespace Endpoint

/-- What was gained by growing the buffer and is about to be announced. -/
def pending (e : Endpoint) : Nat :=
  match e.reader with
  | .tune _ delta => delta
  | .send _ delta => delta
  | _ => 0

/-- Whether the reading goroutine is inside `sendWindowUpdate`. -/
def updating (e : Endpoint) : Bool :=
  match e.reader with
  | .flags | .grow _ | .tune _ _ | .send _ _ => true
  | _ => false

/-- Credit that was granted locally and was not announced. -/
def excess (e : Endpoint) : Int :=
  e.stream.recvBuf.cap + e.appended - initialStreamWindow - e.announced - e.pending

/-- The credit a step loses: what the first growth gained when the window is
doubled, and what a frame that is not sent would have announced. -/
def lostBy (e : Endpoint) : Action → Nat
  | .readNext t ok =>
    match e.reader with
    | .tune flags delta => if e.stream.wantsTuning e.cfg flags t && t.granted then delta else 0
    | .send _ delta => if ok then 0 else delta
    | _ => 0
  | _ => 0

/-- The counters of the receive side: the window is a `uint32`, and what the
receive loop is about to append was checked against it. -/
structure Window (e : Endpoint) : Prop where
  wf : e.stream.recvBuf.Wf
  fits : e.stream.recvBuf.cap + e.stream.recvBuf.len ≤ max initialStreamWindow e.stream.recvWindow
  recvWindow : e.stream.recvWindow < 4294967296
  room : ∀ length body, e.recv = .fill length body → length ≤ e.stream.recvBuf.cap

theorem initialStreamWindow_lt : initialStreamWindow < 4294967296 := by decide

/-! ## One step -/

/-- `e'` is `e` but for fields that have nothing to do with credit. -/
structure Quiet (e e' : Endpoint) : Prop where
  recvBuf : e'.stream.recvBuf = e.stream.recvBuf
  recvWindow : e'.stream.recvWindow = e.stream.recvWindow
  appended : e'.appended = e.appended
  announced : e'.announced = e.announced
  pending : e'.pending = e.pending
  recv : ∀ length body, e'.recv = .fill length body → e.recv = .fill length body

variable {e e' : Endpoint}

theorem Quiet.window (hq : Quiet e e') (h : e.Window) : e'.Window where
  wf := by
    rw [hq.recvBuf]
    exact h.wf
  fits := by
    rw [hq.recvBuf, hq.recvWindow]
    exact h.fits
  recvWindow := by
    rw [hq.recvWindow]
    exact h.recvWindow
  room := by
    intro length body hfill
    rw [hq.recvBuf]
    exact h.room length body (hq.recv length body hfill)

theorem Quiet.excess (hq : Quiet e e') : e'.excess = e.excess := by
  simp [Endpoint.excess, hq.recvBuf, hq.appended, hq.announced, hq.pending]

theorem Quiet.refl : Quiet e e := ⟨rfl, rfl, rfl, rfl, rfl, fun _ _ h => h⟩

theorem Still.quiet (h : Still e e') : Quiet e e' := by
  refine ⟨h.windows.recvBuf, h.windows.recvWindow, h.appended, h.announced, ?_, h.recv⟩
  unfold pending
  rw [h.reader]

theorem doubled_lt : s.doubled cfg < 4294967296 := by
  unfold Stream.doubled
  split <;> omega

/-- A step that loses nothing, and what it keeps. -/
theorem Quiet.exact (hq : Quiet e e') (h : e.Window) : e'.Window ∧ e'.excess = e.excess + (0 : Nat) :=
  ⟨hq.window h, by rw [hq.excess, Nat.cast_zero, add_zero]⟩

variable {buf : SegmentedBuffer}

/-- The buffer is read: the window shrinks, the capacity does not. -/
theorem exact_copy (h : e.Window) {size : Nat} {out : Option (List UInt8)}
    (hreader : e.reader = .copy size) (hread : e.stream.recvBuf.read size = (buf, out))
    (hbuf : e'.stream.recvBuf = buf) (hwin : e'.stream.recvWindow = e.stream.recvWindow)
    (happ : e'.appended = e.appended) (hann : e'.announced = e.announced)
    (hnew : e'.reader = .flags) (hrecv : e'.recv = e.recv) :
    e'.Window ∧ e'.excess = e.excess + (0 : Nat) := by
  obtain ⟨hwf, -, hcap, hlen, -⟩ := read_spec h.wf hread
  have hfits := h.fits
  refine ⟨⟨?_, ?_, ?_, ?_⟩, ?_⟩
  · rw [hbuf]
    exact hwf
  · rw [hbuf, hwin]
    omega
  · rw [hwin]
    exact h.recvWindow
  · intro length body hfill
    rw [hbuf, hcap]
    rw [hrecv] at hfill
    exact h.room length body hfill
  · simp only [excess, pending, hbuf, hcap, hann, hnew, hreader]
    omega

/-- The buffer is grown to `max` and gains `delta`; of what was pending and this
gain, `lost` is not pending any more. -/
theorem exact_grow (h : e.Window) {max : Nat} (hle : e.stream.recvWindow ≤ max)
    (hmax : max < 4294967296) {force : Bool} {needed : Bool} {delta : Nat}
    (hgrow : e.stream.recvBuf.growTo max force = (buf, needed, delta))
    (hbuf : e'.stream.recvBuf = buf) (hwin : e'.stream.recvWindow = max) (hrecv : e'.recv = e.recv)
    (happ : e'.appended = e.appended) (hann : e'.announced = e.announced) {lost : Nat}
    (hpend : (needed = false → delta = 0) → e.pending + delta = e'.pending + lost) :
    e'.Window ∧ e'.excess = e.excess + lost := by
  obtain ⟨buf', needed', delta', heq, hwf, hsame, hdelta, hneed⟩ :=
    growTo_spec h.wf hmax force
  rw [hgrow] at heq
  obtain ⟨rfl, rfl, rfl⟩ : buf = buf' ∧ needed = needed' ∧ delta = delta' := by
    simpa using heq
  have hfits := h.fits
  have hcap : e'.stream.recvBuf.cap = e.stream.recvBuf.cap + delta := by rw [hbuf, hsame]
  have hlen : e'.stream.recvBuf.len = e.stream.recvBuf.len := by rw [hbuf, hsame]
  have hpend := hpend hneed
  refine ⟨⟨?_, ?_, ?_, ?_⟩, ?_⟩
  · rw [hbuf]
    exact hwf
  · rw [hcap]
    omega
  · rw [hwin]
    exact hmax
  · intro length body hfill
    rw [hrecv] at hfill
    have hroom := h.room length body hfill
    omega
  · unfold excess
    omega

/-- The reading goroutine. -/
theorem exact_readNext (h : e.Window) (t : Tuning) (ok : Bool) :
    (e.readNext t ok).1.Window ∧
      (e.readNext t ok).1.excess = e.excess + e.lostBy (.readNext t ok) := by
  have hquiet : ∀ {e' : Endpoint}, Quiet e e' → e.lostBy (.readNext t ok) = 0 →
      e'.Window ∧ e'.excess = e.excess + e.lostBy (.readNext t ok) := by
    intro e' hq hlost
    rw [hlost]
    exact hq.exact h
  cases hr : e.reader with
  | idle =>
    simp only [readNext, hr]
    exact hquiet .refl (by simp [lostBy, hr])
  | start size | sawClosed size =>
    simp only [readNext, hr]
    split
    all_goals
      exact hquiet ⟨rfl, rfl, rfl, rfl, by simp [pending, hr], fun _ _ hf => hf⟩ (by simp [lostBy, hr])
  | sawData size =>
    simp only [readNext, hr]
    split
    · refine hquiet ⟨rfl, rfl, rfl, rfl, ?_, fun _ _ hf => hf⟩ (by simp [lostBy, hr])
      cases ok <;> simp [pending, hr]
    · exact hquiet ⟨rfl, rfl, rfl, rfl, by simp [pending, hr], fun _ _ hf => hf⟩ (by simp [lostBy, hr])
  | copy size =>
    have hlost : e.lostBy (.readNext t ok) = 0 := by simp [lostBy, hr]
    rw [hlost]
    simp only [readNext, hr]
    rcases hread : e.stream.recvBuf.read size with ⟨buf, out⟩
    exact exact_copy h hr hread rfl rfl rfl rfl rfl rfl
  | flags =>
    simp only [readNext, hr]
    split
    · obtain ⟨hbuf, hwin, -⟩ := e.stream.sendFlags_same
      exact hquiet ⟨hbuf, hwin, rfl, rfl, by simp [pending, hr], fun _ _ hf => hf⟩ (by simp [lostBy, hr])
    · exact hquiet .refl (by simp [lostBy, hr])
  | grow flags =>
    have hlost : e.lostBy (.readNext t ok) = 0 := by simp [lostBy, hr]
    rw [hlost]
    simp only [readNext, hr]
    rcases hgrow : e.stream.recvBuf.growTo e.stream.recvWindow flags.any with ⟨buf, needed, delta⟩
    split
    · apply exact_grow h (le_refl _) h.recvWindow hgrow <;> try rfl
      intro _
      simp [pending, hr]
    · rename_i hneed
      apply exact_grow h (le_refl _) h.recvWindow hgrow <;> try rfl
      intro hzero
      simp [pending, updated, hr, hzero (by simpa using hneed)]
  | tune flags delta =>
    simp only [readNext, hr, Stream.autoTune]
    by_cases hwants : (e.stream.wantsTuning e.cfg flags t && t.granted) = true
    · -- the buffer is grown a second time, and the first gain is forgotten
      have hlost : e.lostBy (.readNext t ok) = delta := by simp only [lostBy, hr, if_pos hwants]
      rw [hlost]
      have hdouble : e.stream.recvWindow ≤ e.stream.doubled e.cfg := by
        simp only [Stream.wantsTuning, Bool.and_eq_true, decide_eq_true_eq] at hwants
        exact hwants.1.2.le
      rcases hgrow : e.stream.recvBuf.growTo (e.stream.doubled e.cfg) true with ⟨buf, needed, delta'⟩
      simp only [if_pos hwants]
      apply exact_grow h hdouble (doubled_lt e.cfg e.stream) hgrow <;> try rfl
      intro _
      simp only [pending, hr]
      omega
    · have hlost : e.lostBy (.readNext t ok) = 0 := by simp only [lostBy, hr, if_neg hwants]
      simp only [if_neg hwants]
      exact hquiet ⟨rfl, rfl, rfl, rfl, by simp [pending, hr], fun _ _ hf => hf⟩ hlost
  | send flags delta =>
    cases ok with
    | true =>
      have hlost : e.lostBy (.readNext t true) = 0 := by simp [lostBy, hr]
      rw [hlost]
      simp only [readNext, hr, if_true]
      refine ⟨⟨h.wf, h.fits, h.recvWindow, h.room⟩, ?_⟩
      simp only [excess, pending, announce, updated, hr]
      omega
    | false =>
      have hlost : e.lostBy (.readNext t false) = delta := by simp [lostBy, hr]
      rw [hlost]
      simp only [readNext, hr, Bool.false_eq_true, if_false]
      refine ⟨⟨h.wf, h.fits, h.recvWindow, h.room⟩, ?_⟩
      simp only [excess, pending, updated, hr]
      omega

/-- The writing goroutine announces nothing but frames of length zero. -/
theorem quiet_writeNext (ok : Bool) : Quiet e (e.writeNext ok).1 := by
  obtain ⟨hbuf, hwin, -⟩ := e.stream.sendFlags_same
  cases hw : e.writer with
  | idle => simp only [writeNext, hw]; exact .refl
  | start b | window b =>
    simp only [writeNext, hw]
    split <;> exact ⟨rfl, rfl, rfl, rfl, rfl, fun _ _ hf => hf⟩
  | flags b window =>
    simp only [writeNext, hw]
    exact ⟨hbuf, hwin, rfl, rfl, rfl, fun _ _ hf => hf⟩
  | send b window flags =>
    simp only [writeNext, hw]
    split <;> exact ⟨rfl, rfl, rfl, rfl, rfl, fun _ _ hf => hf⟩
  | sent max =>
    simp only [writeNext, hw]
    exact ⟨rfl, rfl, rfl, rfl, rfl, fun _ _ hf => hf⟩
  | closeFlags cleanup =>
    simp only [writeNext, hw]
    exact ⟨hbuf, hwin, rfl, rfl, rfl, fun _ _ hf => hf⟩
  | closeSend flags cleanup =>
    simp only [writeNext, hw]
    split <;> exact ⟨rfl, rfl, rfl, rfl, rfl, fun _ _ hf => hf⟩
  | cleanup =>
    simp only [writeNext, hw]
    exact ⟨rfl, rfl, rfl, rfl, rfl, fun _ _ hf => hf⟩

theorem quiet_closeWrite : Quiet e e.closeWrite := by
  obtain ⟨hbuf, hwin, -⟩ := e.stream.lockCloseWrite_same
  unfold closeWrite
  rcases heq : e.stream.lockCloseWrite with ⟨s, r⟩
  rw [heq] at hbuf hwin
  cases r
  all_goals exact ⟨hbuf, hwin, rfl, rfl, rfl, fun _ _ hf => hf⟩

/-- The receive loop: what is appended was checked against the capacity. -/
theorem exact_recvNext (h : e.Window) (newCap : Nat) :
    (e.recvNext newCap).Window ∧ (e.recvNext newCap).excess = e.excess + (0 : Nat) := by
  cases hr : e.recv with
  | idle | exceeded err | failed => simp only [recvNext, hr]; exact Quiet.refl.exact h
  | credit length =>
    simp only [recvNext, hr]
    exact Quiet.exact ⟨rfl, rfl, rfl, rfl, rfl, fun _ _ hf => by cases hf⟩ h
  | check length body =>
    simp only [recvNext, hr, checkOverflow]
    by_cases hover : e.stream.recvBuf.cap < length
    · simp only [if_pos hover]
      exact Quiet.exact ⟨rfl, rfl, rfl, rfl, rfl, fun _ _ hf => by cases hf⟩ h
    · simp only [if_neg hover]
      refine ⟨⟨h.wf, h.fits, h.recvWindow, ?_⟩, ?_⟩
      · intro l b hfill
        cases hfill
        exact Nat.le_of_not_lt hover
      · simp only [excess, pending]
        omega
  | fill length body =>
    have hroom := h.room length body hr
    have hfit : (body.take length).length ≤ e.stream.recvBuf.cap := by
      rw [length_take]
      omega
    obtain ⟨hwf, -, hcap, hlen⟩ := store_spec h.wf hfit newCap
    have hfits := h.fits
    simp only [recvNext, hr]
    refine ⟨⟨hwf, ?_, h.recvWindow, ?_⟩, ?_⟩
    · show (e.stream.recvBuf.store (body.take length) newCap).cap +
        (e.stream.recvBuf.store (body.take length) newCap).len ≤
          max initialStreamWindow e.stream.recvWindow
      omega
    · intro l b hfill
      split at hfill <;> cases hfill
    · simp only [excess, pending]
      omega

/-- A step changes the excess by exactly what it loses. -/
theorem Window.step (h : e.Window) (a : Action) :
    (e.step a).Window ∧ (e.step a).excess = e.excess + e.lostBy a := by
  cases a with
  | readNext t ok => exact exact_readNext h t ok
  | recvNext newCap => exact exact_recvNext h newCap
  | writeNext ok => exact (quiet_writeNext ok).exact h
  | closeNext ok => exact (e.still_closeNext ok).quiet.exact h
  | read size =>
    simp only [Endpoint.step, act]
    split
    · rename_i hidle
      exact Quiet.exact ⟨rfl, rfl, rfl, rfl, by simp [pending, hidle.2], fun _ _ hf => hf⟩ h
    · exact Quiet.refl.exact h
  | write b =>
    simp only [Endpoint.step, act]
    split
    · exact Quiet.exact ⟨rfl, rfl, rfl, rfl, rfl, fun _ _ hf => hf⟩ h
    · exact Quiet.refl.exact h
  | closeWrite =>
    simp only [Endpoint.step, act]
    split
    · exact quiet_closeWrite.exact h
    · exact Quiet.refl.exact h
  | closeRead => exact e.still_closeRead.quiet.exact h
  | reset => exact e.still_reset.quiet.exact h
  | deliver f admitted => exact (e.still_deliver f admitted).quiet.exact h

/-! ## Runs -/

/-- The credit a run loses. -/
def lostIn (e : Endpoint) : List Action → Nat
  | [] => 0
  | a :: as => e.lostBy a + (e.step a).lostIn as

/-- No step of the run doubles the window after it was grown, and every window
update that carries credit is handed to the session. -/
def Lossless (e : Endpoint) : List Action → Prop
  | [] => True
  | a :: as => e.lostBy a = 0 ∧ (e.step a).Lossless as

instance Lossless.decidable : (e : Endpoint) → (as : List Action) → Decidable (e.Lossless as)
  | _, [] => .isTrue trivial
  | e, a :: as =>
    have := Lossless.decidable (e.step a) as
    inferInstanceAs (Decidable (e.lostBy a = 0 ∧ (e.step a).Lossless as))

theorem lostIn_eq_zero (as : List Action) : e.lostIn as = 0 ↔ e.Lossless as := by
  induction as generalizing e with
  | nil => exact iff_of_true rfl trivial
  | cons a as ih => rw [lostIn, Lossless, Nat.add_eq_zero_iff, ih]

theorem run_append (as bs : List Action) : e.run (as ++ bs) = (e.run as).run bs :=
  foldl_append

theorem run_singleton (a : Action) : e.run [a] = e.step a := rfl

theorem Window.run (h : e.Window) (as : List Action) :
    (e.run as).Window ∧ (e.run as).excess = e.excess + e.lostIn as := by
  induction as generalizing e with
  | nil =>
    refine ⟨h, ?_⟩
    show e.excess = e.excess + (0 : Nat)
    rw [Nat.cast_zero, add_zero]
  | cons a as ih =>
    obtain ⟨hw, hstep⟩ := h.step a
    obtain ⟨hw', hrun⟩ := ih hw
    refine ⟨hw', ?_⟩
    calc ((e.step a).run as).excess = (e.step a).excess + (e.step a).lostIn as := hrun
      _ = e.excess + e.lostBy a + (e.step a).lostIn as := by rw [hstep]
      _ = e.excess + e.lostIn (a :: as) := by rw [lostIn, Nat.cast_add, add_assoc]

theorem pending_of_not_updating (h : e.updating = false) : e.pending = 0 := by
  unfold updating at h
  unfold pending
  split
  · rename_i hr
    rw [hr] at h
    cases h
  · rename_i hr
    rw [hr] at h
    cases h
  · rfl

/-- The stream of either side, before anything was done with it. -/
def Fresh (e : Endpoint) : Prop :=
  ∃ cfg id now, e = opener cfg id now ∨ e = acceptor cfg id now

theorem Fresh.window (h : e.Fresh) : e.Window := by
  obtain ⟨cfg, id, now, rfl | rfl⟩ := h
  all_goals
    refine ⟨wf_new initialStreamWindow_lt, le_max_left _ _,
      cfg.initialStreamWindowSize.toNat_lt, ?_⟩
    intro length body h
    cases h

theorem Fresh.excess (h : e.Fresh) : e.excess = 0 := by
  obtain ⟨cfg, id, now, rfl | rfl⟩ := h
  · simp [excess, pending, opener, Stream.newStream, new]
  · simp [excess, pending, acceptor, Stream.newStream, new]

end Endpoint

/-- After any run of a stream's receive side, between two calls of
`sendWindowUpdate`, the capacity and the bytes appended are the initial window and
the announced credit exactly when no step of the run lost credit. -/
theorem credit_conserved_iff {e : Endpoint} (hfresh : e.Fresh) (as : List Action)
    (hbetween : (e.run as).updating = false) :
    (e.run as).stream.recvBuf.cap + (e.run as).appended =
        initialStreamWindow + (e.run as).announced ↔
      e.Lossless as := by
  obtain ⟨-, hrun⟩ := hfresh.window.run as
  rw [hfresh.excess, excess, pending_of_not_updating hbetween] at hrun
  rw [← lostIn_eq_zero]
  constructor
  · intro heq
    omega
  · intro hzero
    omega

namespace Endpoint

/-- Nothing is measured and nothing granted. -/
def untuned : Tuning := { now := 0, rtt := 0, granted := false }

/-- `OpenStream`: the first window update, with its SYN, is handed over. -/
def opening : List Action :=
  [.readNext untuned true, .readNext untuned true, .readNext untuned true, .readNext untuned true]

/-- A data frame arrives and is read in one go; `t` is what the window update that
follows is told. -/
def exchange (body : List UInt8) (t : Tuning) : List Action :=
  [.deliver (.data {} body.length body) true, .recvNext 16, .recvNext 16, .read body.length,
    .readNext t true, .readNext t true, .readNext t true, .readNext t true, .readNext t true,
    .readNext t true, .readNext t true]

end Endpoint

/-- A stream with a window of one MiB announces what is above the initial window with its SYN;
then three bytes are received and read. -/
theorem credit_conserved_exchange :
    let cfg : Config := { Config.default with initialStreamWindowSize := 1048576 }
    let e := (Endpoint.opener cfg 1 0).run (Endpoint.opening ++ Endpoint.exchange [1, 2, 3]
      Endpoint.untuned)
    e.announced = 786432 ∧
      e.stream.recvBuf.cap + e.appended = initialStreamWindow + e.announced :=
  ⟨by decide +kernel,
    (credit_conserved_iff ⟨_, 1, 0, .inl rfl⟩ _ (by decide +kernel)).mpr (by decide +kernel)⟩

namespace Endpoint

/-- The stream that `opening` leaves, with this buffer and at this place of its
reader and receive loop, after `returned` was read of `appended` bytes. -/
def opened (recvBuf : SegmentedBuffer) (reader : Reader) (recv : RecvLoop) (returned : List UInt8)
    (appended : Nat) : Endpoint :=
  { cfg := .default, registered := true, admitted := true, started := true, reader,
    recv, returned, appended,
    stream := { id := 1, recvWindow := 262144, epochStart := 0, state := .streamSYNSent,
                recvBuf } }

/-- A window update within four round trips, with memory to spare. -/
def quick : Action := .readNext ⟨1, 1, true⟩ true

/-- The stream after its window was doubled. -/
def doubledStream : Stream :=
  { id := 1, recvWindow := 524288, epochStart := 1, state := .streamSYNSent,
    recvBuf := { cap := 524288, bPos := 1, b := [[]] } }

end Endpoint

open Endpoint in
/-- Half the window is received and read within a round trip, so the window is
doubled: the buffer grows by 131072 and then by 262144, and only the second gain
is announced. -/
theorem doubling_run (body : List UInt8) (hbody : body.length = 131072) :
    ((opener .default 1 0).run (opening ++ exchange body ⟨1, 1, true⟩)) =
      { opened { cap := 524288, bPos := 1, b := [[]] } .idle .idle body 131072 with
        announced := 262144, stream := doubledStream } := by
  have htake : body.take 131072 = body := take_of_length_le (by omega)
  have hsteps : exchange body ⟨1, 1, true⟩ =
      [.deliver (.data {} 131072 body) true, .recvNext 16] ++ [.recvNext 16] ++
      [.read 131072, quick, quick] ++ [quick] ++ [quick, quick] ++ [quick, quick] := by
    simp only [exchange, hbody]
    rfl
  have h₁ : (opener .default 1 0).run opening = opened { cap := 262144 } .idle .idle [] 0 := by rfl
  have h₂ : (opened { cap := 262144 } .idle .idle [] 0).run
      [.deliver (.data {} 131072 body) true, .recvNext 16] =
      opened { cap := 262144 } .idle (.fill 131072 body) [] 0 := by rfl
  have h₃ : (opened { cap := 262144 } .idle (.fill 131072 body) [] 0).step (.recvNext 16) =
      opened { cap := 131072, len := 131072, b := [body] } .idle .idle [] 131072 := by
    simp [step, act, recvNext, opened, htake, hbody, SegmentedBuffer.store, SegmentedBuffer.push,
      add32, sub32]
  have h₄ : (opened { cap := 131072, len := 131072, b := [body] } .idle .idle [] 131072).run
      [.read 131072, quick, quick] =
      opened { cap := 131072, len := 131072, b := [body] } (.copy 131072) .idle [] 131072 := by rfl
  have h₅ : (opened { cap := 131072, len := 131072, b := [body] } (.copy 131072) .idle [] 131072).step
      quick = opened { cap := 131072, bPos := 1, b := [[]] } .flags .idle body 131072 := by
    simp [step, act, quick, readNext, opened, htake, hbody, SegmentedBuffer.read,
      SegmentedBuffer.advance, sub32]
  have hgrow : SegmentedBuffer.growTo { cap := 131072, bPos := 1, b := [[]] } 262144 false =
      ({ cap := 262144, bPos := 1, b := [[]] }, true, 131072) := by decide +kernel
  have h₆ : (opened { cap := 131072, bPos := 1, b := [[]] } .flags .idle body 131072).run
      [quick, quick] =
      opened { cap := 262144, bPos := 1, b := [[]] } (.tune {} 131072) .idle body 131072 := by
    simp [run, step, act, quick, readNext, opened, Stream.sendFlags, Flags.any, hgrow]
  have htune : Stream.autoTune .default (opened { cap := 262144, bPos := 1, b := [[]] } .idle .idle []
      0).stream {} 131072 ⟨1, 1, true⟩ = (doubledStream, 262144) := by
    decide +kernel
  have h₇ : (opened { cap := 262144, bPos := 1, b := [[]] } (.tune {} 131072) .idle body 131072).run
      [quick, quick] = { opened { cap := 524288, bPos := 1, b := [[]] } .idle .idle body 131072 with
        announced := 262144, stream := doubledStream } := by
    simp only [opened] at htune
    simp [run, step, act, quick, readNext, opened, htune, announce, updated]
  simp only [hsteps, run_append, run_singleton, h₁, h₂, h₃, h₄, h₅, h₆, h₇]

open Endpoint in
/-- 131072 zero bytes: 655360 bytes are granted and 524288 announced. -/
theorem credit_lost_by_doubling :
    let e := (opener .default 1 0).run (opening ++ exchange (replicate 131072 0) ⟨1, 1, true⟩)
    e.updating = false ∧
      e.stream.recvBuf.cap + e.appended = initialStreamWindow + e.announced + 131072 := by
  rw [doubling_run _ length_replicate]
  exact ⟨rfl, rfl⟩

end Dep2p.Yamux
