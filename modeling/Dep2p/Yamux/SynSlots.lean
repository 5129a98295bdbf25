import Dep2p.Yamux.Session

/- Who holds a SYN slot.

   The channel `synCh` should hold one token for every stream that was opened here
   and is neither acknowledged nor closed, which is what `inflight` lists. Two
   pieces of code let them drift apart: `OpenStream` forgets its token, its memory
   span or its map entries on four of its error paths, and `establishStream` takes a
   token for an ACK on any stream, tracked or not.

   What is proved:
     1. `openStream_failure_atomic_iff` — in every state any run can reach, an
        `OpenStream` that fails leaves tokens, maps and spans as they were exactly
        when it failed before it put its token into the channel.
     2. `tracks_step_iff` — from a state where tokens and `inflight` agree, a step
        keeps them in agreement exactly when it is `Tracked`.
     3. `synCh_tracks_inflight` — in every run of tracked steps they agree.
     4. `openStream_leaks_token`, `second_ack_takes_token` — inputs that break each.

   Everything but `OpenStream`, an ACK and the closing of a tracked stream leaves
   the slots alone, which is said once (`SameSlots`). -/
namespace Dep2p.Yamux

open Lib Finset

namespace Session

/-- Tokens, `inflight` and the next identifier are the same. -/
structure SameSlots (s s' : Session) : Prop where
  synCh : s'.synCh = s.synCh
  inflight : s'.inflight = s.inflight
  nextStreamID : s'.nextStreamID = s.nextStreamID

theorem SameSlots.refl (s : Session) : SameSlots s s := ⟨rfl, rfl, rfl⟩

theorem SameSlots.trans {s s' s'' : Session} (h : SameSlots s s') (h' : SameSlots s' s'') :
    SameSlots s s'' :=
  ⟨h'.synCh.trans h.synCh, h'.inflight.trans h.inflight, h'.nextStreamID.trans h.nextStreamID⟩

/-- One token for every stream in flight. -/
def Tracks (s : Session) : Prop := s.synCh = s.inflight.card

/-- The next identifier was not used. -/
def Below (s : Session) : Prop := ∀ id ∈ s.inflight, id < s.nextStreamID

variable {s s' : Session} {env : FrameEnv} {f : Frame} {id : Nat}

theorem SameSlots.tracks_iff (h : SameSlots s s') : s'.Tracks ↔ s.Tracks := by
  rw [Tracks, Tracks, h.synCh, h.inflight]

theorem SameSlots.below (h : SameSlots s s') (hb : s.Below) : s'.Below := by
  intro id hid
  rw [h.inflight] at hid
  rw [h.nextStreamID]
  exact hb id hid

/-! ## Steps that leave the slots alone -/

section

variable (s : Session) (id : Nat)

theorem same_deleteStream : SameSlots s (s.deleteStream id) := by
  unfold deleteStream
  split
  · exact .refl s
  · exact ⟨rfl, rfl, rfl⟩

theorem same_modifyStream (f : Stream → Stream) : SameSlots s (s.modifyStream id f) := by
  unfold modifyStream
  split
  · exact .refl s
  · exact ⟨rfl, rfl, rfl⟩

theorem same_spanDone (span : Nat) : SameSlots s (s.spanDone span) := ⟨rfl, rfl, rfl⟩

theorem same_close : SameSlots s s.close := by
  unfold close
  split
  · exact .refl s
  · exact ⟨rfl, rfl, rfl⟩

theorem same_incomingStream : SameSlots s (s.incomingStream id env).1 := by
  unfold incomingStream
  dsimp only
  split
  · exact .refl s
  split
  · exact .refl s
  split
  · exact .refl s
  split
  · exact ⟨rfl, rfl, rfl⟩
  split
  · exact ⟨rfl, rfl, rfl⟩
  split
  · exact ⟨rfl, rfl, rfl⟩
  split
  · exact ⟨rfl, rfl, rfl⟩
  -- the backlog is full, and the stream is deleted again
  apply SameSlots.trans _ (same_spanDone _ s.nextSpan)
  apply SameSlots.trans _ (same_deleteStream _ id)
  exact ⟨rfl, rfl, rfl⟩

theorem same_afterSyn (f : Frame) (env : FrameEnv) :
    SameSlots s (s.afterSyn id f env).1 := by
  unfold afterSyn
  split
  · exact same_incomingStream s id
  · exact .refl s

theorem same_takeFrame (buf : SegmentedBuffer) (env : FrameEnv) (f : Frame) :
    SameSlots s (s.takeFrame id buf env f).1 := by
  cases f with
  | windowUpdate flags length => exact same_modifyStream s id _
  | data flags length body =>
    simp only [takeFrame]
    split
    · exact .refl s
    · split
      · exact ⟨rfl, rfl, rfl⟩
      · exact same_modifyStream s id _

theorem same_acceptStream (t : Tuning) (sendOk : Bool) :
    SameSlots s (s.acceptStream t sendOk) := by
  unfold acceptStream
  split
  · exact .refl s
  dsimp only
  split
  · exact ⟨rfl, rfl, rfl⟩
  · split
    · exact ⟨rfl, rfl, rfl⟩
    · split <;> exact ⟨rfl, rfl, rfl⟩

end

/-! ## Closing and acknowledging -/

/-- A stream in flight gives its token back, another stream has none to give. -/
theorem tracks_closeStream (h : s.Tracks) : (s.closeStream id).Tracks := by
  unfold closeStream
  rw [(same_deleteStream _ id).tracks_iff]
  split
  · rename_i hid
    show s.synCh - 1 = (s.inflight.erase id).card
    rw [card_erase_of_mem hid, h]
  · exact h

theorem below_closeStream (h : s.Below) : (s.closeStream id).Below := by
  apply (same_deleteStream _ id).below
  split
  · intro x hx
    exact h x (mem_of_mem_erase hx)
  · exact h

/-- A stream that is not in flight is closed without a token. -/
theorem same_closeStream (h : id ∉ s.inflight) : SameSlots s (s.closeStream id) := by
  unfold closeStream
  rw [if_neg h]
  exact same_deleteStream s id

/-- An ACK takes a token, so it must be for a stream in flight, or find none. -/
theorem tracks_establishStream_iff (h : s.Tracks) :
    (s.establishStream id).Tracks ↔ id ∈ s.inflight ∨ s.synCh = 0 := by
  show s.synCh - 1 = (s.inflight.erase id).card ↔ _
  by_cases hid : id ∈ s.inflight
  · rw [card_erase_of_mem hid, h]
    exact iff_of_true rfl (.inl hid)
  · rw [erase_eq_of_notMem hid, ← h]
    constructor
    · intro heq
      exact .inr (by omega)
    · intro hor
      have := hor.resolve_left hid
      omega

theorem below_takeFlags (h : s.Below) (str : Stream) (flags : Flags) :
    (s.takeFlags id str flags).Below := by
  unfold takeFlags
  dsimp only
  have hestablished : ∀ b, (if b = true then
      ({ s with streams := s.streams.set id (str.processFlags flags).1 } : Session).establishStream id
      else { s with streams := s.streams.set id (str.processFlags flags).1 }).Below := by
    intro b x hx
    cases b with
    | true => exact h x (mem_of_mem_erase hx)
    | false => exact h x hx
  split
  · exact below_closeStream (hestablished _)
  · exact hestablished _

/-- The flags of a frame keep tokens and streams in agreement unless an ACK is for
a stream that is not in flight. -/
theorem tracks_takeFlags_iff (h : s.Tracks) (id : Nat) (str : Stream) (flags : Flags) :
    (s.takeFlags id str flags).Tracks ↔ (flags.ack = true → id ∈ s.inflight ∨ s.synCh = 0) := by
  have heffect : (str.processFlags flags).2.establish = flags.ack := rfl
  unfold takeFlags
  dsimp only
  rw [heffect]
  set t : Session := { s with streams := s.streams.set id (str.processFlags flags).1 } with ht
  have htt : t.Tracks := h
  cases hack : flags.ack with
  | false =>
    simp only [Bool.false_eq_true, false_imp_iff, iff_true]
    split
    · exact tracks_closeStream htt
    · exact htt
  | true =>
    simp only [if_true, true_imp_iff]
    have hnot : id ∉ (t.establishStream id).inflight := notMem_erase id _
    split
    · rw [(same_closeStream hnot).tracks_iff]
      exact tracks_establishStream_iff htt
    · exact tracks_establishStream_iff htt

/-! ## Opening -/

/-- After it has its token, `OpenStream` gets a span, memory and an identifier,
and its first frame is handed over. -/
def OpensWell (s : Session) (env : OpenEnv) : Prop :=
  env.spanOk = true ∧ env.memoryOk = true ∧ s.nextStreamID < 4294967294 ∧ env.sendOk = true

instance (s : Session) (env : OpenEnv) : Decidable (s.OpensWell env) :=
  inferInstanceAs (Decidable (_ ∧ _ ∧ _ ∧ _))

/-- The first window update carries a SYN, so it is always sent. -/
theorem windowUpdate_init (cfg : Config) (id span : Nat) (t : Tuning) :
    ((Stream.newStream cfg id .streamInit initialStreamWindow span t.now).windowUpdate cfg
      t).2.isSome = true := by
  have hforced := SegmentedBuffer.growTo_forced (.new initialStreamWindow)
    cfg.initialStreamWindowSize.toNat
  simp only [Stream.windowUpdate, Stream.newStream, Stream.sendFlags, Flags.any, Bool.true_or,
    hforced]
  rfl

/-- What `OpenStream` has done with its token when it returns. -/
theorem openWithToken_slots (s : Session) (env : OpenEnv) :
    if s.OpensWell env then
      (s.openWithToken env).1.synCh = s.synCh ∧
        (s.openWithToken env).1.inflight = insert s.nextStreamID s.inflight ∧
        (s.openWithToken env).1.nextStreamID = s.nextStreamID + 2 ∧
        (s.openWithToken env).2 = .ok s.nextStreamID
    else
      (∃ err, (s.openWithToken env).2 = .error err) ∧
        ((SameSlots s (s.openWithToken env).1) ∨
          (s.openWithToken env).1.synCh = s.synCh - 1 ∧
            (s.openWithToken env).1.inflight = insert s.nextStreamID s.inflight ∧
            (s.openWithToken env).1.nextStreamID = s.nextStreamID + 2) := by
  have hsent := windowUpdate_init s.cfg s.nextStreamID s.nextSpan env.tuning
  by_cases hwell : s.OpensWell env
  · rw [if_pos hwell]
    obtain ⟨hspan, hmem, hid, hsend⟩ := hwell
    have hid : ¬ s.newMemoryManager.nextStreamID ≥ 4294967294 := not_le.mpr hid
    simp only [openWithToken, hspan, hmem, hsend, Bool.not_true, if_false, hid,
      Bool.and_false]
    exact ⟨rfl, rfl, rfl, rfl⟩
  · rw [if_neg hwell]
    unfold openWithToken
    dsimp only
    split
    · exact ⟨⟨_, rfl⟩, Or.inl (SameSlots.refl s)⟩
    split
    · exact ⟨⟨_, rfl⟩, Or.inl ⟨rfl, rfl, rfl⟩⟩
    split
    · exact ⟨⟨_, rfl⟩, .inl ⟨rfl, rfl, rfl⟩⟩
    rename_i hspan hmem hid
    have hsend : env.sendOk = false := by
      by_contra hsend
      apply hwell
      refine ⟨by simpa using hspan, by simpa using hmem, not_le.mp hid, by simpa using hsend⟩
    rw [if_pos]
    · exact ⟨⟨_, rfl⟩, Or.inr ⟨rfl, rfl, rfl⟩⟩
    · rw [hsend, Bool.not_false, Bool.and_true]
      exact hsent

theorem below_openStream (hb : s.Below) (env : OpenEnv) : (s.step (.openStream env)).Below := by
  have hslots := openWithToken_slots { s with synCh := s.synCh + 1 } env
  have hinsert : ∀ t : Session, t.inflight = insert s.nextStreamID s.inflight →
      t.nextStreamID = s.nextStreamID + 2 → t.Below := by
    intro t hin hnext x hx
    rw [hin] at hx
    rcases mem_insert.mp hx with rfl | hx
    · omega
    · have := hb x hx
      omega
  rw [step_openStream]
  split
  · split at hslots
    · exact hinsert _ hslots.2.1 hslots.2.2.1
    · rcases hslots.2 with hsame | ⟨-, hin, hnext⟩
      · exact hsame.below hb
      · exact hinsert _ hin hnext
  · exact hb

/-- `OpenStream` keeps tokens and streams in agreement when it fails before it has
a token, or not at all. -/
theorem tracks_openStream_iff (h : s.Tracks) (hb : s.Below) (env : OpenEnv) :
    (s.step (.openStream env)).Tracks ↔ (s.TakesToken env → s.OpensWell env) := by
  have hslots := openWithToken_slots { s with synCh := s.synCh + 1 } env
  have hfresh : s.nextStreamID ∉ s.inflight := fun hin => absurd (hb _ hin) (lt_irrefl _)
  have hcard : (insert s.nextStreamID s.inflight).card = s.inflight.card + 1 :=
    card_insert_of_notMem hfresh
  have h' : s.synCh = s.inflight.card := h
  rw [step_openStream]
  by_cases htake : s.TakesToken env
  · rw [if_pos htake]
    simp only [htake, true_imp_iff]
    have hsame : OpensWell { s with synCh := s.synCh + 1 } env ↔ s.OpensWell env := .rfl
    by_cases hwell : s.OpensWell env
    · rw [if_pos (hsame.mpr hwell)] at hslots
      obtain ⟨hsyn, hin, -, -⟩ := hslots
      refine iff_of_true ?_ hwell
      rw [Tracks, hsyn, hin, hcard, h']
    · rw [if_neg (mt hsame.mp hwell)] at hslots
      refine iff_of_false ?_ hwell
      intro hbad
      rw [Tracks] at hbad
      rcases hslots.2 with hs | ⟨hsyn, hin, -⟩
      · rw [hs.synCh, hs.inflight] at hbad
        change s.synCh + 1 = s.inflight.card at hbad
        omega
      · rw [hsyn, hin] at hbad
        change s.synCh + 1 - 1 = (insert s.nextStreamID s.inflight).card at hbad
        omega
  · rw [if_neg htake]
    exact iff_of_true h fun hc => absurd hc htake

/-! ## Frames -/

/-- The frame reaches a stream: one that is there, or that its SYN creates. -/
def Reaches (s : Session) (id : Nat) (f : Frame) (env : FrameEnv) : Prop :=
  s.shutdown = false ∧ (s.afterSyn id f env).2 = false ∧
    ((s.afterSyn id f env).1.streams.get id).isSome = true

instance (s : Session) (id : Nat) (f : Frame) (env : FrameEnv) : Decidable (s.Reaches id f env) :=
  inferInstanceAs (Decidable (_ ∧ _ ∧ _))

theorem tracks_frame_iff (h : s.Tracks) :
    (s.step (.frame id f env)).Tracks ↔
      (s.Reaches id f env → f.flags.ack = true → id ∈ s.inflight ∨ s.synCh = 0) := by
  have hsyn := same_afterSyn s id f env
  have htracks : (s.afterSyn id f env).1.Tracks := hsyn.tracks_iff.mpr h
  have hnot : ∀ t : Session, ¬ s.Reaches id f env → t.Tracks →
      (t.Tracks ↔ (s.Reaches id f env → f.flags.ack = true → id ∈ s.inflight ∨ s.synCh = 0)) :=
    fun t hn ht => iff_of_true ht fun hc => absurd hc hn
  simp only [step, receive]
  split
  · rename_i hsd
    exact hnot s (fun hr => by rw [hr.1] at hsd; cases hsd) h
  · rename_i hsd
    rcases hafter : s.afterSyn id f env with ⟨t, err⟩
    rw [hafter] at htracks hsyn
    cases err with
    | true =>
      have hhandle : s.handleStreamMessage id f env = (t, true) := by
        simp [handleStreamMessage, hafter]
      rw [hhandle]
      refine hnot _ (fun hr => ?_) ((same_close t).tracks_iff.mpr htracks)
      have := hr.2.1
      rw [hafter] at this
      cases this
    | false =>
      cases hget : t.streams.get id with
      | none =>
        have hhandle : s.handleStreamMessage id f env = (t, false) := by
          simp [handleStreamMessage, hafter, hget]
        rw [hhandle]
        refine hnot _ (fun hr => ?_) htracks
        have := hr.2.2
        rw [hafter, hget] at this
        cases this
      | some str =>
        have hreach : s.Reaches id f env := by
          refine ⟨by simpa using hsd, ?_, ?_⟩
          · rw [hafter]
          · rw [hafter, hget]
            rfl
        have hhandle : s.handleStreamMessage id f env =
            (t.takeFlags id str f.flags).takeFrame id str.recvBuf env f := by
          simp [handleStreamMessage, hafter, hget]
        have hflags := tracks_takeFlags_iff htracks id str f.flags
        rw [hsyn.inflight, hsyn.synCh] at hflags
        have hframe := same_takeFrame (t.takeFlags id str f.flags) id str.recvBuf env f
        simp only [hreach, true_imp_iff]
        rw [← hflags, hhandle]
        rcases hres : (t.takeFlags id str f.flags).takeFrame id str.recvBuf env f with ⟨u, err⟩
        rw [hres] at hframe
        cases err with
        | true => rw [(same_close u).tracks_iff, hframe.tracks_iff]
        | false => rw [hframe.tracks_iff]

theorem below_frame (hb : s.Below) :
    (s.step (.frame id f env)).Below := by
  have hhandle : (s.handleStreamMessage id f env).1.Below := by
    have hsyn := (same_afterSyn s id f env).below hb
    unfold handleStreamMessage
    rcases hafter : s.afterSyn id f env with ⟨t, _ | _⟩
    all_goals rw [hafter] at hsyn
    · cases hget : t.streams.get id with
      | none => simpa only [hget] using hsyn
      | some str =>
        simp only [hget]
        exact (same_takeFrame _ id str.recvBuf env f).below (below_takeFlags hsyn str f.flags)
    · exact hsyn
  simp only [step, receive]
  split
  · exact hb
  rcases hres : s.handleStreamMessage id f env with ⟨t, _ | _⟩
  · rw [hres] at hhandle
    exact hhandle
  · rw [hres] at hhandle
    exact (same_close t).below hhandle

theorem same_handleGoAway (code : Nat) :
    SameSlots s (s.receive (·.handleGoAway code)) := by
  simp only [receive, handleGoAway]
  split
  · exact .refl s
  by_cases hcode : code = 0
  · simp only [if_pos hcode]
    exact ⟨rfl, rfl, rfl⟩
  · simp only [if_neg hcode]
    exact same_close s

/-! ## Closing a stream that was returned -/

theorem tracks_onStream (h : s.Tracks) (f : Stream → Stream × Bool) :
    (s.onStream id f).Tracks := by
  unfold onStream
  split
  · exact h
  split
  · dsimp only
    split
    · apply tracks_closeStream
      exact h
    · exact h
  · exact h

theorem below_onStream (h : s.Below) (f : Stream → Stream × Bool) :
    (s.onStream id f).Below := by
  unfold onStream
  split
  · exact h
  split
  · dsimp only
    split
    · apply below_closeStream
      exact h
    · exact h
  · exact h

/-! ## Steps and runs -/

/-- The next identifier is new in every state. -/
theorem below_step (hb : s.Below) (op : Op) : (s.step op).Below := by
  cases op with
  | openStream env => exact below_openStream hb env
  | acceptStream t sendOk => exact (same_acceptStream s t sendOk).below hb
  | closeWrite id | closeRead id | reset id => exact below_onStream hb _
  | frame id f env => exact below_frame hb
  | goAway code => exact (same_handleGoAway code).below hb
  | close => exact (same_close s).below hb

/-- The steps that keep a token for every stream in flight: an `OpenStream` that
took a token does not fail, and an ACK that reaches a stream is for one in flight,
or finds no token to take. -/
def Tracked (s : Session) : Op → Prop
  | .openStream env => s.TakesToken env → s.OpensWell env
  | .frame id f env => s.Reaches id f env → f.flags.ack = true → id ∈ s.inflight ∨ s.synCh = 0
  | _ => True

instance (s : Session) (op : Op) : Decidable (s.Tracked op) := by
  cases op <;> unfold Tracked <;> infer_instance

theorem tracks_step_iff (h : s.Tracks) (hb : s.Below) (op : Op) :
    (s.step op).Tracks ↔ s.Tracked op := by
  cases op with
  | openStream env => exact tracks_openStream_iff h hb env
  | acceptStream t sendOk =>
    exact iff_of_true ((same_acceptStream s t sendOk).tracks_iff.mpr h) trivial
  | closeWrite id | closeRead id | reset id => exact iff_of_true (tracks_onStream h _) trivial
  | frame id f env => exact tracks_frame_iff h
  | goAway code => exact iff_of_true ((same_handleGoAway code).tracks_iff.mpr h) trivial
  | close => exact iff_of_true ((same_close s).tracks_iff.mpr h) trivial

theorem below_newSession (cfg : Config) (client : Bool) : (newSession cfg client).Below := by
  intro id hid
  exact absurd hid (notMem_empty id)

theorem below_reach {ok : Session → Op → Prop} {cfg : Config} {client : Bool}
    (hr : Reach step ok (newSession cfg client) s) : s.Below := by
  apply Reach.invariant (below_newSession cfg client) _ hr
  intro t op _ _ hb
  exact below_step hb op

/-- In every run of tracked steps the channel holds as many tokens as there are
streams in flight. -/
theorem synCh_tracks_inflight {cfg : Config} {client : Bool}
    (hr : Reach Session.step Tracked (newSession cfg client) s) : s.synCh = s.inflight.card := by
  have hinit : (newSession cfg client).Tracks := card_empty.symm
  apply Reach.invariant hinit _ hr
  intro t op hreach htracked h
  exact (tracks_step_iff h (below_reach hreach) op).mpr htracked

/-- A world that refuses nothing. -/
def willing : OpenEnv := ⟨.token, true, true, true, ⟨0, 0, true⟩⟩

/-- An ACK without anything else. -/
def ackFrame (id : Nat) : Op := .frame id (.windowUpdate { ack := true } 0) ⟨true, true, true, 0, 0⟩

/-- Two streams are opened and the first is acknowledged. -/
def twoOpens : Session :=
  (((newSession .default true).step (.openStream willing)).step (.openStream willing)).step (ackFrame 1)

theorem twoOpens_reach : Reach step Tracked (newSession .default true) twoOpens := by
  refine .step (ackFrame 1)
    (.step (Op.openStream willing) (.step (Op.openStream willing) .init ?_) ?_) ?_
  all_goals decide +kernel

theorem synCh_tracks_twoOpens : twoOpens.synCh = twoOpens.inflight.card :=
  synCh_tracks_inflight twoOpens_reach

/-- A second ACK on the first stream takes the token of the other one, and room for
one more than `AcceptBacklog` streams. -/
theorem second_ack_takes_token :
    (twoOpens.step (ackFrame 1)).synCh = 0 ∧ (twoOpens.step (ackFrame 1)).inflight = {3} ∧
      (twoOpens.step (ackFrame 1)).synCh ≠ (twoOpens.step (ackFrame 1)).inflight.card := by
  decide +kernel

/-! ## A failed `OpenStream` -/

/-- What `OpenStream` takes: its token, its two map entries and its memory span. -/
def SameHoldings (s s' : Session) : Prop :=
  s'.synCh = s.synCh ∧ s'.streams = s.streams ∧ s'.inflight = s.inflight ∧ s'.spans = s.spans

theorem SameHoldings.refl : SameHoldings s s := ⟨rfl, rfl, rfl, rfl⟩

/-- In a state any run reaches, an `OpenStream` that fails leaves what the session
holds as it was exactly when it failed before it took a token. -/
theorem openStream_failure_atomic_iff {cfg : Config} {client : Bool}
    (hr : Reach Session.step (fun _ _ => True) (newSession cfg client) s) (env : OpenEnv)
    (err : OpenErr) (h : s.openStream env = some (s', .error err)) :
    SameHoldings s s' ↔ ¬ s.TakesToken env := by
  have hfresh : s.nextStreamID ∉ s.inflight :=
    fun hin => absurd (below_reach hr _ hin) (lt_irrefl _)
  by_cases htake : s.TakesToken env
  · refine iff_of_false ?_ (not_not_intro htake)
    rw [openStream_of_takesToken htake, Option.some.injEq] at h
    have hslots := openWithToken_slots { s with synCh := s.synCh + 1 } env
    rw [h] at hslots
    rintro ⟨hsyn, -, hin, -⟩
    split at hslots
    · cases hslots.2.2.2
    · rcases hslots.2 with hs | ⟨-, hinsert, -⟩
      · have := hs.synCh
        change s'.synCh = s.synCh + 1 at this
        omega
      · -- the entry that a failed send leaves behind
        apply hfresh
        rw [← hin, hinsert]
        exact mem_insert_self _ _
  · refine iff_of_true ?_ htake
    rcases openStream_of_not_takesToken htake with heq | ⟨err', heq⟩
    all_goals
      rw [heq] at h
      cases h
    exact .refl

/-- With one stream open, a call whose context is done, and one that gets no memory. -/
theorem openStream_failure_oneOpen :
    let s := (newSession .default true).step (.openStream willing)
    (∃ s', s.openStream { willing with acquire := .ctxDone } = some (s', .error .ctxErr) ∧
      SameHoldings s s') ∧
    ∃ s', s.openStream { willing with memoryOk := false } = some (s', .error .memoryErr) ∧
      ¬ SameHoldings s s' := by
  intro s
  have hr : Reach Session.step (fun _ _ => True) (newSession .default true) s :=
    .step (Op.openStream willing) .init trivial
  have htake : s.TakesToken { willing with memoryOk := false } := by decide +kernel
  have hrefused : s.openStream { willing with memoryOk := false } =
      some ({ s with synCh := s.synCh + 1 }.newMemoryManager, .error .memoryErr) :=
    openStream_of_takesToken htake
  have hdone : s.openStream { willing with acquire := .ctxDone } = some (s, .error .ctxErr) := rfl
  refine ⟨⟨s, hdone, ?_⟩, _, hrefused, fun hsame => ?_⟩
  · exact (openStream_failure_atomic_iff hr _ _ hdone).mpr (by decide +kernel)
  · exact (openStream_failure_atomic_iff hr _ _ hrefused).mp hsame htake

/-- Each of the four refusals that `OpenStream` meets after it took its token: the
session is left with a token too many, with a span too many, or with the entries of
a stream that nobody holds. -/
theorem openStream_leaks_token :
    let s : Session := newSession .default true
    let spent : Session := { s with nextStreamID := 4294967295 }
    ((s.openStream { willing with spanOk := false }).map fun r => (r.1.synCh, r.2.isOk)) =
        some (1, false) ∧
      ((s.openStream { willing with memoryOk := false }).map fun r =>
        (r.1.synCh, r.1.spans, r.2.isOk)) = some (1, {0}, false) ∧
      ((spent.openStream willing).map fun r => (r.1.synCh, r.2.isOk)) = some (1, false) ∧
      ((s.openStream { willing with sendOk := false }).map fun r =>
        (r.1.inflight, (r.1.streams.get 1).isSome, r.2.isOk)) = some ({1}, true, false) := by
  decide +kernel

end Session

end Dep2p.Yamux
