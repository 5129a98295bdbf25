import Dep2p.HttpAuth.Client

/- A client among servers (`handshake/client.go`, `auth/client.go`).

   The client parses headers and runs in any order, the headers are the adversary's, and
   owners of keys sign what they like. Ideal signatures let a header carry only what has been
   signed, and a challenge that is drawn is fresh: nobody has signed it before.

   Correspondence (Go ↔ Lean):
     `runHandshake`, its loop                        ↔ `runHandshake`, `handshakeLoop`
     `AuthenticatedDo`, before the handshake         ↔ `begins`

   The result is that a client reports a server only if the owner of the server's key has
   signed the challenge of this handshake, for this client and host, since it was drawn, and
   that the body of a request goes out after that and at most once
   (`server_authenticated`). -/
namespace Dep2p.HttpAuth

open Lib List Client

variable {ε Priv Pub : Type} (E : Externals Priv Pub ε)

/-- The client, what has been signed, and what had been signed when its challenge was
drawn. -/
structure Meeting (Priv Pub : Type) where
  client : Client Priv Pub
  signed : List (Pub × Bytes)
  before : List (Pub × Bytes)

inductive ClientEvent (Pub ε : Type) where
  | sign (key : Pub) (msg : Bytes)
  | parseHeader (header : Header)
  | run (random : Except ε Bytes)

namespace Meeting

def step (w : Meeting Priv Pub) : ClientEvent Pub ε → Meeting Priv Pub
  | .sign key msg => { w with signed := (key, msg) :: w.signed }
  | .parseHeader header => { w with client := (w.client.parseHeader E header).1 }
  | .run random =>
    let client := (w.client.run E random).1
    { w with
      client
      before := if client.challengeServer = w.client.challengeServer then w.before else w.signed }

/-- A signature that is accepted is of the owner of the key. -/
def Unforged (w : Meeting Priv Pub) (p : Params) : Prop :=
  ∀ b64 sig key msg, p.sigB64 = some b64 → E.decodeB64 b64 = .ok sig →
    E.signing.verify key msg sig = .ok true → (key, msg) ∈ w.signed

/-- The parameters in a field of a header. -/
def paramsOf (ε : Type) (headerVal : Bytes) : Params :=
  (parsePeerIDAuthSchemeParams (ε := ε) {} headerVal).1

/-- Ideal signatures, and random challenges that nobody has signed. -/
def Ideal (w : Meeting Priv Pub) : ClientEvent Pub ε → Prop
  | .sign _ _ => True
  | .parseHeader header =>
    Unforged E w (paramsOf ε header.wwwAuthenticate) ∧
      Unforged E w (paramsOf ε header.authenticationInfo)
  | .run random =>
    ∃ r, random = .ok r ∧ ∀ key k H, (key, serverProof (E.encodeB64 r) k H) ∉ w.signed

/-- The owner of the key of `P` has signed the client's challenge, for the client's key and
host, since the challenge was drawn. -/
def Authentic (w : Meeting Priv Pub) (P : Bytes) : Prop :=
  ∃ key cpk, E.idFromPublicKey key = .ok P ∧
    E.marshalPublicKey (E.signing.getPublic w.client.privKey) = .ok cpk ∧
    (key, serverProof w.client.challengeServer cpk w.client.hostname) ∈ w.signed ∧
    (key, serverProof w.client.challengeServer cpk w.client.hostname) ∉ w.before

/-- What every step keeps. -/
structure Kept (w : Meeting Priv Pub) : Prop where
  key : w.client.serverPeerID = [] ∨ ∃ key, w.client.serverPubKey = some key ∧
    E.idFromPublicKey key = .ok w.client.serverPeerID
  params : Unforged E w w.client.p
  before : w.before ⊆ w.signed
  drawn : w.client.state ≠ .signChallenge → w.client.state ≠ .initiateChallenge →
    ∀ key k H, (key, serverProof w.client.challengeServer k H) ∉ w.before
  proved : w.client.Proved → ∃ key cpk, w.client.serverPubKey = some key ∧
    E.marshalPublicKey (E.signing.getPublic w.client.privKey) = .ok cpk ∧
    (key, serverProof w.client.challengeServer cpk w.client.hostname) ∈ w.signed

variable {E} {w : Meeting Priv Pub}

theorem unforged_blank : Unforged E w {} := by
  intro b64 sig key msg hb
  cases hb

theorem Kept.sign (hw : w.Kept E) (key : Pub) (msg : Bytes) :
    (w.step E (.sign key msg)).Kept E where
  key := hw.key
  params b64 sig k m hb hdec hver := mem_cons_of_mem _ (hw.params b64 sig k m hb hdec hver)
  before := subset_cons_of_subset _ hw.before
  drawn := hw.drawn
  proved hp := by
    obtain ⟨k, cpk, hk, hcpk, hmem⟩ := hw.proved hp
    exact ⟨k, cpk, hk, hcpk, mem_cons_of_mem _ hmem⟩

variable {header : Header}

theorem Kept.parseHeader (hw : w.Kept E) (hev : Ideal E w (.parseHeader header)) :
    (w.step E (.parseHeader header)).Kept E := by
  have hspec := parseHeader_spec (E := E) w.client header
  constructor
  · rcases hspec.key with ⟨hk, hid⟩ | ⟨-, key, hk, hid⟩
    · rw [step, hk, hid]
      exact hw.key
    · rw [step, hk]
      rcases hid with hid | hid
      · exact .inl hid
      · exact .inr ⟨key, rfl, hid⟩
  · rw [step]
    rcases hspec.params with hp | hp | hp | hp <;> rw [hp]
    · exact hw.params
    · exact unforged_blank
    · exact hev.1
    · exact hev.2
  · exact hw.before
  · rw [step, hspec.state, hspec.challengeServer]
    exact hw.drawn
  · intro hp
    have hp' : w.client.Proved := by
      rw [step] at hp
      rwa [Client.Proved, hspec.state] at hp
    obtain ⟨key, cpk, hk, hcpk, hmem⟩ := hw.proved hp'
    -- The key that has signed is not replaced.
    have hk' : (w.client.parseHeader E header).1.serverPubKey = some key := by
      rcases hspec.key with ⟨heq, -⟩ | ⟨hnone, -⟩
      · rw [heq, hk]
      · rw [hk] at hnone
        cases hnone
    rw [step, hspec.privKey, hspec.challengeServer, hspec.hostname]
    exact ⟨key, cpk, hk', hcpk, hmem⟩

variable {random : Except ε Bytes}

theorem Kept.run (hw : w.Kept E) (hev : Ideal E w (.run random)) :
    (w.step E (.run random)).Kept E := by
  obtain ⟨r, rfl, hfresh⟩ := hev
  have hspec := run_spec (E := E) w.client r
  -- Nothing that is signed with a fresh challenge was signed before, now or then.
  have hbefore : (if (w.client.run E (.ok r)).1.challengeServer = w.client.challengeServer
      then w.before else w.signed) ⊆ w.signed := by
    split
    · exact hw.before
    · exact .refl _
  constructor
  · rw [step, hspec.key.1, hspec.key.2]
    exact hw.key
  · rw [step, hspec.params]
    exact hw.params
  · exact hbefore
  · intro h1 h2 key k H hmem
    rcases hspec.drawn h1 h2 with hc | ⟨hc, hs1, hs2⟩
    · have hin := hbefore hmem
      dsimp only [step] at hin
      rw [hc] at hin
      exact hfresh key k H hin
    · dsimp only [step] at hmem
      rw [if_pos hc, hc] at hmem
      exact hw.drawn hs1 hs2 key k H hmem
  · intro hp
    obtain ⟨hc, hver⟩ := hspec.proved hp
    rw [step, hspec.key.1, hspec.privKey, hspec.hostname]
    rw [hc]
    rcases hver with hp' | ⟨b64, sig, key, cpk, hb, hdec, hk, hcpk, hver⟩
    · exact hw.proved hp'
    · exact ⟨key, cpk, hk, hcpk, hw.params b64 sig key _ hb hdec hver⟩

theorem Kept.step (hw : w.Kept E) {ev : ClientEvent Pub ε} (hev : Ideal E w ev) :
    (w.step E ev).Kept E := by
  cases ev with
  | sign key msg => exact hw.sign key msg
  | parseHeader header => exact hw.parseHeader hev
  | run random => exact hw.run hev

/-- A new client, which begins or is about to answer. -/
def begins (hostname : Bytes) (privKey : Priv) (initiate : Bool) (signed : List (Pub × Bytes)) :
    Meeting Priv Pub where
  client := { hostname, privKey, state := if initiate then .initiateChallenge else .signChallenge }
  signed
  before := signed

theorem kept_begins (hostname : Bytes) (privKey : Priv) (initiate : Bool)
    (signed : List (Pub × Bytes)) : (begins hostname privKey initiate signed).Kept E where
  key := .inl rfl
  params := unforged_blank
  before := .refl _
  drawn h1 h2 := by
    cases initiate with
    | true => exact absurd rfl h2
    | false => exact absurd rfl h1
  proved hp := by
    cases initiate <;> rcases hp with hp | hp <;> cases hp

theorem Kept.authentic (hw : w.Kept E) (hp : w.client.Proved) (hne : w.client.serverPeerID ≠ []) :
    w.Authentic E w.client.serverPeerID := by
  obtain ⟨key, cpk, hk, hcpk, hmem⟩ := hw.proved hp
  obtain ⟨key', hk', hid⟩ := hw.key.resolve_left hne
  rw [hk] at hk'
  cases hk'
  refine ⟨key, cpk, hid, hcpk, hmem, hw.drawn ?_ ?_ key cpk _⟩
  all_goals rcases hp with hp | hp <;> rw [hp] <;> decide

theorem kept_of_reach {hostname : Bytes} {privKey : Priv} {initiate : Bool}
    {signed : List (Pub × Bytes)}
    (hr : Reach (step E) (Ideal E) (begins hostname privKey initiate signed) w) : w.Kept E :=
  hr.invariant (kept_begins hostname privKey initiate signed) fun _ _ _ hev hw => hw.step hev

/-! ## Requests -/

/-- A request, and the meeting when it went out. -/
structure Sent (Priv Pub : Type) where
  authorization : Bytes
  body : Bool
  meeting : Meeting Priv Pub

/-- What happens after a request: owners of keys sign, a response comes, and there is
randomness for the next run. -/
structure Round (Pub ε : Type) where
  signs : List (Pub × Bytes)
  response : Except ε Header
  random : Except ε Bytes

inductive Outcome (ε : Type) where
  | peer (id : Bytes)
  | failed (err : HandshakeErr ε)
  | tooManySteps
  | waiting
  deriving DecidableEq

variable (E)

def signAll (w : Meeting Priv Pub) (signs : List (Pub × Bytes)) : Meeting Priv Pub :=
  signs.foldl (fun w s => w.step E (.sign s.1 s.2)) w

/-- What `runHandshake` returns after its loop. -/
def report (w : Meeting Priv Pub) : Outcome ε :=
  match w.client.peerID with
  | .error err => .failed err
  | .ok id => .peer id

/-- The loop of `runHandshake` with `steps` left. `body` is whether the request has a body;
a clone of a request has it too. -/
def handshakeLoop : Nat → Bool → Bool → Meeting Priv Pub → List (Round Pub ε) →
    List (Sent Priv Pub) × Outcome ε
  | 0, _, _, _, _ => ([], .tooManySteps)
  | steps + 1, sentBody, body, w, rounds =>
    if w.client.state = .done ∧ sentBody then ([], report w)
    else
      let sentBody := sentBody || w.client.serverAuthenticated
      let body := body || w.client.serverAuthenticated
      let sent : Sent Priv Pub := ⟨w.client.hb.b, body, w⟩
      match rounds with
      | [] => ([sent], .waiting)
      | round :: rounds =>
        let w := signAll E w round.signs
        match round.response with
        | .error err => ([sent], .failed (.foreign err))
        | .ok header =>
          let w := w.step E (.parseHeader header)
          match (w.client.run E round.random).2 with
          | .error err => ([sent], .failed err)
          | .ok () =>
            if steps = 0 then ([sent], .tooManySteps)
            else
              let rest := handshakeLoop steps sentBody body (w.step E (.run round.random)) rounds
              (sent :: rest.1, rest.2)

def maxSteps : Nat := 5

/-- The request has no body to begin with. -/
def runHandshake (w : Meeting Priv Pub) (random : Except ε Bytes) (rounds : List (Round Pub ε)) :
    List (Sent Priv Pub) × Outcome ε :=
  match (w.client.run E random).2 with
  | .error err => ([], .failed err)
  | .ok () => handshakeLoop E maxSteps false false (w.step E (.run random)) rounds

/-- Every response and every draw is ideal when it comes. -/
def IdealRounds : Meeting Priv Pub → List (Round Pub ε) → Prop
  | _, [] => True
  | w, round :: rounds =>
    let w := signAll E w round.signs
    ∀ header, round.response = .ok header →
      Ideal E w (.parseHeader header) ∧
        (let w := w.step E (.parseHeader header)
         Ideal E w (.run round.random) ∧ IdealRounds (w.step E (.run round.random)) rounds)

variable {E} {init : Meeting Priv Pub}

theorem reach_signAll (hr : Reach (step E) (Ideal E) init w) (signs : List (Pub × Bytes)) :
    Reach (step E) (Ideal E) init (signAll E w signs) := by
  induction signs generalizing w with
  | nil => exact hr
  | cons s signs ih => exact ih (hr.step (ClientEvent.sign s.1 s.2) trivial)

theorem signAll_client (w : Meeting Priv Pub) (signs : List (Pub × Bytes)) :
    (signAll E w signs).client = w.client := by
  induction signs generalizing w with
  | nil => rfl
  | cons s signs ih => exact ih (w.step E (.sign s.1 s.2))

/-- Requests that go out along a run of the client, with a body only if the server is
authenticated and at most `n` times, and a report from the end of the run. -/
structure Sound (E : Externals Priv Pub ε) (init : Meeting Priv Pub) (n : Nat)
    (res : List (Sent Priv Pub) × Outcome ε) : Prop where
  reach : ∀ s ∈ res.1, Reach (step E) (Ideal E) init s.meeting
  authenticated : ∀ s ∈ res.1, s.body = true → s.meeting.client.serverAuthenticated = true
  peer : ∀ P, res.2 = .peer P → ∃ w, Reach (step E) (Ideal E) init w ∧
    (w.client.peerID : Except (HandshakeErr ε) Bytes) = .ok P
  once : res.1.countP (·.body) ≤ n

theorem Sound.done (hr : Reach (step E) (Ideal E) init w) (n : Nat) :
    Sound E init n ([], report w) where
  reach s hs := nomatch hs
  authenticated s hs := nomatch hs
  peer P hP := by
    refine ⟨w, hr, ?_⟩
    unfold report at hP
    split at hP
    · cases hP
    · rename_i id hid
      cases hP
      exact hid
  once := n.zero_le

/-- One more request in front, which has its body if the server is authenticated. -/
theorem Sound.cons {n : Nat} {res : List (Sent Priv Pub) × Outcome ε} (hres : Sound E init n res)
    (hr : Reach (step E) (Ideal E) init w) (authorization : Bytes) :
    Sound E init (n + if w.client.serverAuthenticated then 1 else 0)
      (⟨authorization, w.client.serverAuthenticated, w⟩ :: res.1, res.2) where
  reach := forall_mem_cons.mpr ⟨hr, hres.reach⟩
  authenticated := forall_mem_cons.mpr ⟨id, hres.authenticated⟩
  peer := hres.peer
  once := by
    rw [countP_cons]
    exact Nat.add_le_add_right hres.once _

theorem Sound.single {out : Outcome ε} (hout : ∀ P, out ≠ .peer P)
    (hr : Reach (step E) (Ideal E) init w) (authorization : Bytes) :
    Sound E init 1 ([⟨authorization, w.client.serverAuthenticated, w⟩], out) where
  reach := forall_mem_cons.mpr ⟨hr, fun _ hs => nomatch hs⟩
  authenticated := forall_mem_cons.mpr ⟨id, fun _ hs => nomatch hs⟩
  peer P hP := absurd hP (hout P)
  once := countP_le_length

/-- A client whose server is authenticated has nothing left to do after the next run. -/
theorem done_after (hauth : w.client.serverAuthenticated = true)
    (hok : ((w.step E (.parseHeader header)).client.run E random).2 = .ok ()) :
    ((w.step E (.parseHeader header)).step E (.run random)).client.state = .done := by
  refine run_done ?_ hok
  have hp : w.client.Proved := by
    simp only [serverAuthenticated, decide_eq_true_eq] at hauth
    exact hauth.1
  have hstate := (parseHeader_spec (E := E) w.client header).state
  unfold Client.Proved at hp ⊢
  rw [step, hstate]
  exact hp

variable {rounds : List (Round Pub ε)}

/-- The loop sends one body at most, and none if one has been sent. The induction is on the
steps that are left; a body that has been sent means that the client is done. -/
theorem handshakeLoop_sound {steps : Nat} {sentBody : Bool}
    (hr : Reach (step E) (Ideal E) init w) (hrounds : IdealRounds E w rounds)
    (hsent : sentBody = true → w.client.state = .done) :
    Sound E init (if sentBody then 0 else 1) (handshakeLoop E steps sentBody sentBody w rounds) := by
  induction steps generalizing w sentBody rounds with
  | zero => exact ⟨fun _ h => (nomatch h), fun _ h => (nomatch h), fun _ h => (nomatch h), Nat.zero_le _⟩
  | succ steps ih =>
    rw [handshakeLoop]
    by_cases hexit : w.client.state = .done ∧ sentBody = true
    · rw [if_pos hexit]
      exact .done hr _
    · have hfalse : sentBody = false := by
        cases sentBody with
        | false => rfl
        | true => exact absurd ⟨hsent rfl, rfl⟩ hexit
      rw [if_neg hexit]
      subst hfalse
      simp only [Bool.false_eq_true, if_false]
      split
      · exact .single (by simp) hr _
      rename_i round rounds
      split
      · exact .single (by simp) hr _
      rename_i header hresp
      have hr1 := reach_signAll hr round.signs
      obtain ⟨hparse, hrun, hrest⟩ := hrounds header hresp
      have hr2 := hr1.step (.parseHeader header) hparse
      have hr3 := hr2.step (.run round.random) hrun
      split
      · exact .single (by simp) hr _
      rename_i hok
      split
      · exact .single (by simp) hr _
      have hdone : w.client.serverAuthenticated = true →
          (((signAll E w round.signs).step E (.parseHeader header)).step E
            (.run round.random)).client.state = .done := by
        intro hauth
        refine done_after ?_ hok
        rwa [signAll_client]
      have hcons := (ih hr3 hrest hdone).cons hr w.client.hb.b
      -- Either this request has the body or one that follows may have it.
      cases hauth : w.client.serverAuthenticated with
      | false | true =>
        rw [hauth] at hcons
        exact hcons

theorem runHandshake_sound (hr : Reach (step E) (Ideal E) init w)
    (hrandom : Ideal E w (.run random)) (hrounds : IdealRounds E (w.step E (.run random)) rounds) :
    Sound E init 1 (runHandshake E w random rounds) := by
  unfold runHandshake
  split
  · exact ⟨fun _ h => (nomatch h), fun _ h => (nomatch h), fun _ h => (nomatch h), Nat.zero_le _⟩
  have hloop : Sound E init (if false = true then 0 else 1)
      (handshakeLoop E maxSteps false false (w.step E (.run random)) rounds) :=
    handshakeLoop_sound (hr.step (.run random) hrandom) hrounds fun h => nomatch h
  exact hloop

end Meeting

/-- Whatever servers answer, a client reports a server only if the owner of its key has signed
the challenge of this handshake, for this client and host, since it was drawn; and the body
of a request goes out only after that, and at most once. -/
theorem server_authenticated (hostname : Bytes) (privKey : Priv) (initiate : Bool)
    (signed : List (Pub × Bytes)) {w : Meeting Priv Pub}
    (hr : Reach (Meeting.step E) (Meeting.Ideal E)
      (Meeting.begins hostname privKey initiate signed) w) :
    (w.client.serverAuthenticated = true →
      (w.client.peerID : Except (HandshakeErr ε) Bytes) = .ok w.client.serverPeerID) ∧
    (∀ P, (w.client.peerID : Except (HandshakeErr ε) Bytes) = .ok P → w.Authentic E P) ∧
    (∀ c k H c' k' H', serverProof c k H = serverProof c' k' H' → c = c' ∧ k = k' ∧ H = H') ∧
    ∀ random rounds, Meeting.Ideal E w (.run random) →
      Meeting.IdealRounds E (w.step E (.run random)) rounds →
      (∀ s ∈ (Meeting.runHandshake E w random rounds).1, s.body = true →
        s.meeting.Authentic E s.meeting.client.serverPeerID) ∧
      (Meeting.runHandshake E w random rounds).1.countP (·.body) ≤ 1 ∧
      ∀ P, (Meeting.runHandshake E w random rounds).2 = .peer P →
        ∃ w' : Meeting Priv Pub, (w'.client.peerID : Except (HandshakeErr ε) Bytes) = .ok P ∧
          w'.Authentic E P := by
  have hreported {w : Meeting Priv Pub} (hr : Reach (.step E) (Meeting.Ideal E)
      (.begins hostname privKey initiate signed) w) (P : Bytes)
      (hP : (w.client.peerID : Except (HandshakeErr ε) Bytes) = .ok P) : w.Authentic E P := by
    obtain ⟨hp, hne, rfl⟩ := peerID_ok hP
    exact (Meeting.kept_of_reach hr).authentic hp hne
  refine ⟨peerID_of_authenticated, hreported hr, fun _ _ _ _ _ _ => serverProof_inj, ?_⟩
  intro random rounds hrandom hrounds
  have hsound := Meeting.runHandshake_sound hr hrandom hrounds
  refine ⟨?_, hsound.once, ?_⟩
  · intro s hs hbody
    exact hreported (hsound.reach s hs) _
      (peerID_of_authenticated (hsound.authenticated s hs hbody))
  · intro P hP
    obtain ⟨w', hr', hid⟩ := hsound.peer P hP
    exact ⟨w', hid, hreported hr' P hid⟩

/-! A client that begins, and a server whose key is no secret: a signature is the message
behind a mark. -/

def openExternals : Externals Unit Unit Unit where
  signing := Signing.ofFun (0x21 :: ·)
  marshalPublicKey _ := .ok (bytes "k")
  unmarshalPublicKey _ := .ok ()
  idFromPublicKey _ := .ok (bytes "p")
  encodeB64 := id
  decodeB64 := .ok

def beginning : Meeting Unit Unit := Meeting.begins (bytes "h") () true []

/-- What the server signs. -/
def proofOfC : Bytes := serverProof (bytes "c") (bytes "k") (bytes "h")

def proofHeader : Bytes :=
  peerIDAuthScheme ++ bytes " public-key=\"s\", sig=\"!" ++ proofOfC ++ bytes "\""

/-- The server signs the challenge `c` and says so, and then has nothing to add. -/
def twoRounds : List (Meeting.Round Unit Unit) :=
  [⟨[((), proofOfC)], .ok { wwwAuthenticate := proofHeader }, .ok (bytes "d")⟩,
    ⟨[], .ok {}, .ok (bytes "e")⟩]

theorem fresh_of_ne {r : Bytes} (hne : r ≠ bytes "c") (key : Unit) (k H : Bytes) :
    (key, serverProof r k H) ∉ [((), proofOfC)] := by
  intro hmem
  exact hne (serverProof_inj (Prod.mk.inj (mem_singleton.mp hmem)).2).1

theorem unforged_empty (w : Meeting Unit Unit) :
    Meeting.Unforged openExternals w (Meeting.paramsOf Unit []) := by
  have hblank : Meeting.paramsOf Unit [] = {} := by decide +kernel
  rw [hblank]
  exact Meeting.unforged_blank

theorem twoRounds_ideal :
    Meeting.IdealRounds openExternals (beginning.step openExternals (.run (.ok (bytes "c")))) twoRounds := by
  intro header hheader
  cases hheader
  refine ⟨⟨?_, unforged_empty _⟩, ⟨_, rfl, fresh_of_ne (by decide +kernel)⟩, ?_⟩
  · intro b64 sig key msg hb hdec hver
    have hparams : (Meeting.paramsOf Unit proofHeader).sigB64 = some (0x21 :: proofOfC) := by
      decide +kernel
    rw [hparams] at hb
    cases hb
    cases hdec
    cases Signing.ofFun_verify.mp hver
    exact mem_singleton.mpr rfl
  · intro header hheader
    cases hheader
    exact ⟨⟨unforged_empty _, unforged_empty _⟩, ⟨_, rfl, fresh_of_ne (by decide +kernel)⟩, trivial⟩

theorem server_authenticated_twoRounds :
    (Meeting.runHandshake openExternals beginning (.ok (bytes "c")) twoRounds).1.countP (·.body) ≤ 1 ∧
      ∃ w : Meeting Unit Unit,
        (w.client.peerID : Except (HandshakeErr Unit) Bytes) = .ok (bytes "p") ∧
          w.Authentic openExternals (bytes "p") := by
  have hrandom : Meeting.Ideal openExternals beginning (.run (.ok (bytes "c"))) :=
    ⟨_, rfl, fun _ _ _ hmem => nomatch hmem⟩
  obtain ⟨-, hone, hreport⟩ := (server_authenticated openExternals (bytes "h") () true [] .init).2.2.2
    _ _ hrandom twoRounds_ideal
  exact ⟨hone, hreport _ (by decide +kernel)⟩

end Dep2p.HttpAuth
