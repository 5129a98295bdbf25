import Dep2p.HttpAuth.Server

/- Servers that share an HMAC key, and their clients (`server.go`).

   Any number of servers answer requests, for any hosts and with any private keys, and
   owners of keys sign what they like. `World` is what has been signed, which opaque states
   went out under the HMAC and which challenges were given out, and when. An ideal HMAC and
   ideal signatures let a request carry only what is in there (`Ideal`). -/
namespace Dep2p.HttpAuth

open Lib List Server

variable {ε Priv Pub : Type} {E : ServerExternals Priv Pub ε}

/-! ## What a request that succeeds has done -/

variable {o : OpaqueState} {d : Bytes}

namespace Server

variable {h h' : Server Priv} {now now' : Time} {random : Except ε Bytes}

/-- The reply gives out a challenge, with the host and the time in the opaque state. -/
structure Challenges (E : ServerExternals Priv Pub ε) (h h' : Server Priv) (now : Time) : Prop where
  isToken : h'.opaqueState.isToken = h.opaqueState.isToken
  peerID : h'.opaqueState.peerID = h.opaqueState.peerID
  challenge : ∃ r, h'.opaqueState.challengeClient = E.encodeB64 r
  hostname : h'.opaqueState.hostname = h.hostname
  createdTime : h'.opaqueState.createdTime = now
  state : h'.state = h.state

variable {key : Bytes}

theorem addOpaqueValue_ok (hrun : addOpaqueValue E h key = .ok h') :
    h'.opaqueState = h.opaqueState ∧ h'.state = h.state := by
  obtain ⟨val, -, hrun⟩ := bind_eq_ok.mp hrun
  split at hrun
  · cases hrun
  · cases hrun
    exact ⟨rfl, rfl⟩

theorem addChallengeClientParam_ok (hrun : addChallengeClientParam E h now random = .ok h') :
    Challenges E h h' now := by
  obtain ⟨r, -, hrun⟩ := bind_eq_ok.mp hrun
  cases hrun
  exact ⟨rfl, rfl, ⟨r, rfl⟩, rfl, rfl, rfl⟩

theorem addPublicKeyParam_ok (hrun : addPublicKeyParam E h = .ok h') :
    h'.opaqueState = h.opaqueState ∧ h'.state = h.state := by
  obtain ⟨key, -, hrun⟩ := bind_eq_ok.mp hrun
  cases hrun
  exact ⟨rfl, rfl⟩

theorem addServerSigParam_ok (hrun : addServerSigParam E h key = .ok h') :
    h'.opaqueState = h.opaqueState ∧ h'.state = h.state := by
  unfold addServerSigParam at hrun
  dsimp only at hrun
  split at hrun
  · cases hrun
  · obtain ⟨sig, -, hrun⟩ := bind_eq_ok.mp hrun
    cases hrun
    exact ⟨rfl, rfl⟩

/-- Nothing but the key of the client is changed afterwards. -/
theorem Challenges.keep {h₁ : Server Priv} (hc : Challenges E h h₁ now)
    (ho : h'.opaqueState = { h₁.opaqueState with clientPublicKey := key })
    (hs : h'.state = h₁.state) : Challenges E h h' now where
  isToken := by rw [ho, hc.isToken]
  peerID := by rw [ho, hc.peerID]
  challenge := by rw [ho]; exact hc.challenge
  hostname := by rw [ho, hc.hostname]
  createdTime := by rw [ho, hc.createdTime]
  state := hs.trans hc.state

theorem runChallengeClient_ok (hrun : runChallengeClient E h now random = .ok h') :
    Challenges E h h' now := by
  obtain ⟨h₁, h1, hrun⟩ := bind_eq_ok.mp hrun
  obtain ⟨h₂, h2, hrun⟩ := bind_eq_ok.mp hrun
  have hc : Challenges E h h₁ now := { addChallengeClientParam_ok (mapError_eq_ok.mp h1) with }
  obtain ⟨ho₂, hs₂⟩ := addPublicKeyParam_ok (mapError_eq_ok.mp h2)
  obtain ⟨ho, hs⟩ := addOpaqueValue_ok hrun
  exact hc.keep (ho.trans ho₂) (hs.trans hs₂)

theorem runSignChallenge_ok (hrun : runSignChallenge E h now random = .ok h') :
    Challenges E h h' now := by
  obtain ⟨h₁, h1, hrun⟩ := bind_eq_ok.mp hrun
  obtain ⟨h₂, h2, hrun⟩ := bind_eq_ok.mp hrun
  obtain ⟨key, -, hrun⟩ := bind_eq_ok.mp hrun
  obtain ⟨h₃, h3, hrun⟩ := bind_eq_ok.mp hrun
  have hc : Challenges E h h₁ now := { addChallengeClientParam_ok (mapError_eq_ok.mp h1) with }
  obtain ⟨ho₂, hs₂⟩ := addPublicKeyParam_ok (mapError_eq_ok.mp h2)
  obtain ⟨ho₃, hs₃⟩ := addServerSigParam_ok (mapError_eq_ok.mp h3)
  obtain ⟨ho, hs⟩ := addOpaqueValue_ok hrun
  -- The key of the client is stored next to the challenge.
  have hstate : h'.opaqueState = { h₁.opaqueState with clientPublicKey := key } := by
    rw [ho, ho₃]
    rw [ho₂]
  exact hc.keep hstate ((hs.trans hs₃).trans hs₂)

/-- A client is let in by an answer: its opaque value holds a challenge for this host that
is not too old, and its signature is on that challenge. -/
structure Answered (E : ServerExternals Priv Pub ε) (h h' : Server Priv) (now now' : Time)
    (d fields : Bytes) (o : OpaqueState) (pubKey : Pub) (spk sig : Bytes) : Prop where
  value : E.decodeB64 (h.p.opaqueB64.getD []) = .ok d
  authentic : authenticated E d = some fields
  state : E.json.decode fields = .ok o
  young : now ≤ o.createdTime + challengeTTL
  challenge : o.isToken = false
  hostname : h.hostname = o.hostname
  serverKey : E.marshalPublicKey (E.signing.getPublic h.privKey) = .ok spk
  signature : E.decodeB64 (h.p.sigB64.getD []) = .ok sig
  verified : E.signing.verify pubKey (clientProof o.challengeClient spk h.hostname) sig = .ok true
  peerID : E.idFromPublicKey pubKey = .ok h'.opaqueState.peerID
  token : h'.opaqueState =
    { isToken := true, peerID := h'.opaqueState.peerID, hostname := h.hostname, createdTime := now' }
  serverState : h'.state = h.state

theorem unmarshalOpaque_ok (hrun : unmarshalOpaque E d = .ok o) :
    ∃ fields, authenticated E d = some fields ∧ E.json.decode fields = .ok o := by
  unfold unmarshalOpaque at hrun
  split at hrun
  · cases hrun
  · rename_i fields hauth
    exact ⟨fields, hauth, mapError_eq_ok.mp hrun⟩

theorem checkChallenge_ok (hrun : (checkChallenge h now : Except (HandshakeErr ε) Unit) = .ok ()) :
    now ≤ h.opaqueState.createdTime + challengeTTL ∧ h.opaqueState.isToken = false ∧
      h.hostname = h.opaqueState.hostname := by
  unfold checkChallenge at hrun
  split at hrun
  · cases hrun
  rename_i hyoung
  split at hrun
  · cases hrun
  rename_i htoken
  split at hrun
  · cases hrun
  · rename_i hhost
    exact ⟨not_lt.mp hyoung, Bool.eq_false_iff.mpr htoken, not_not.mp hhost⟩

theorem verifySig_eq_ok {key : Pub} (hrun : verifySig E h key = .ok ()) :
    ∃ spk sig, E.marshalPublicKey (E.signing.getPublic h.privKey) = .ok spk ∧
      E.decodeB64 (h.p.sigB64.getD []) = .ok sig ∧
      E.signing.verify key (clientProof h.opaqueState.challengeClient spk h.hostname) sig =
        .ok true := by
  obtain ⟨spk, hspk, hrun⟩ := bind_eq_ok.mp hrun
  obtain ⟨sig, hsig, hrun⟩ := bind_eq_ok.mp hrun
  obtain ⟨key', hkey, hverify⟩ := verifySig_ok _ hrun
  cases hkey
  exact ⟨spk, sig, mapError_eq_ok.mp hspk, mapError_eq_ok.mp hsig, hverify⟩

theorem runVerifyChallenge_ok (hrun : runVerifyChallenge E h now now' = .ok h') :
    ∃ d fields o pubKey spk sig, Answered E h h' now now' d fields o pubKey spk sig := by
  obtain ⟨d, hd, hrun⟩ := bind_eq_ok.mp hrun
  obtain ⟨o, ho, hrun⟩ := bind_eq_ok.mp hrun
  obtain ⟨⟨⟩, hcheck, hrun⟩ := bind_eq_ok.mp hrun
  obtain ⟨keyBytes, -, hrun⟩ := bind_eq_ok.mp hrun
  obtain ⟨pubKey, -, hrun⟩ := bind_eq_ok.mp hrun
  obtain ⟨⟨⟩, hverify, hrun⟩ := bind_eq_ok.mp hrun
  obtain ⟨id, hid, hrun⟩ := bind_eq_ok.mp hrun
  obtain ⟨h₁, h1, hrun⟩ := bind_eq_ok.mp hrun
  obtain ⟨fields, hauth, hdec⟩ := unmarshalOpaque_ok (mapError_eq_ok.mp ho)
  obtain ⟨hyoung, htoken, hhost⟩ := checkChallenge_ok (mapError_eq_ok.mp hcheck)
  obtain ⟨spk, sig, hspk, hsig, hver⟩ := verifySig_eq_ok (mapError_eq_ok.mp hverify)
  obtain ⟨hlast, hslast⟩ := addOpaqueValue_ok hrun
  -- Whether or not the server signs too, the state is the new token.
  have hmid : h₁.opaqueState =
      { isToken := true, peerID := id, hostname := h.hostname, createdTime := now' } ∧
        h₁.state = h.state := by
    have h1 := mapError_eq_ok.mp h1
    unfold addServerSigParamUnless at h1
    split at h1
    · cases h1
      exact ⟨rfl, rfl⟩
    · exact addServerSigParam_ok h1
  rw [hmid.1] at hlast
  rw [hmid.2] at hslast
  refine ⟨d, fields, o, pubKey, spk, sig, ?_⟩
  constructor
  · exact mapError_eq_ok.mp (mapError_eq_ok.mp hd)
  · exact hauth
  · exact hdec
  · exact hyoung
  · exact htoken
  · exact hhost
  · exact hspk
  · exact hsig
  · exact hver
  · rw [hlast]
    exact mapError_eq_ok.mp (mapError_eq_ok.mp hid)
  · rw [hlast]
  · exact hslast

theorem runVerifyBearer_ok (hrun : runVerifyBearer E h now = .ok h') :
    ∃ d fields, E.decodeB64 (h.p.bearerTokenB64.getD []) = .ok d ∧
      authenticated E d = some fields ∧ E.json.decode fields = .ok h'.opaqueState ∧
      h'.opaqueState.isToken = true ∧ now ≤ h'.opaqueState.createdTime + h.tokenTTL ∧
      h'.state = h.state := by
  obtain ⟨d, hd, hrun⟩ := bind_eq_ok.mp hrun
  obtain ⟨o, ho, hrun⟩ := bind_eq_ok.mp hrun
  obtain ⟨fields, hauth, hdec⟩ := unmarshalOpaque_ok ho
  dsimp only at hrun
  split at hrun
  · cases hrun
  rename_i htoken
  split at hrun
  · cases hrun
  · rename_i hyoung
    cases hrun
    exact ⟨d, fields, mapError_eq_ok.mp hd, hauth, hdec, not_not.mp htoken, not_lt.mp hyoung, rfl⟩

theorem peerID_ok {P : Bytes} (hP : (h.peerID : Except (HandshakeErr ε) Bytes) = .ok P) :
    h.opaqueState.peerID = P := by
  unfold peerID at hP
  grind

theorem parse_nil (p : Params) :
    (parsePeerIDAuthSchemeParams p [] : Params × Except (HandshakeErr ε) Unit) = (p, .ok ()) := by
  have hnone : afterFirst peerIDAuthScheme [] = none := by decide +kernel
  rw [parsePeerIDAuthSchemeParams, if_neg (by decide), hnone]

/-- A header sets the parameters and the state, and nothing else. -/
theorem parseHeaderVal_ok {header : Bytes}
    (hrun : (parseHeaderVal h header : Except (HandshakeErr ε) (Server Priv)) = .ok h') :
    h' = { h with
      p := (parsePeerIDAuthSchemeParams (ε := ε) h.p header).1, state := h'.state } := by
  unfold parseHeaderVal at hrun
  split at hrun
  · rename_i hempty
    cases hrun
    rw [isEmpty_iff.mp hempty, parse_nil]
  · split at hrun
    · cases hrun
    rename_i p hparse
    rw [hparse]
    split at hrun
    · cases hrun
      rfl
    · split at hrun
      · cases hrun
        rfl
      · split at hrun
        · cases hrun
          rfl
        · cases hrun

end Server

/-! ## Servers and clients -/

/-- A request to a new server. -/
structure Call (Priv ε : Type) where
  hostname : Bytes
  privKey : Priv
  tokenTTL : Time
  header : Bytes
  now : Time
  now' : Time
  random : Except ε Bytes

namespace Call

variable (E)

def serve (call : Call Priv ε) : Except (Fault (HandshakeErr ε)) (Server Priv) := do
  let h ← failing (Server.parseHeaderVal
    { hostname := call.hostname, privKey := call.privKey, tokenTTL := call.tokenTTL } call.header)
  h.run E call.now call.now' call.random

def params (call : Call Priv ε) : Params :=
  (parsePeerIDAuthSchemeParams (ε := ε) {} call.header).1

end Call

/-- A challenge that was given out for a host. -/
structure Issue where
  challenge : Bytes
  hostname : Bytes
  time : Time

/-- What the owners of keys have signed, the opaque states that went out under the HMAC and
the challenges that were given out. -/
structure World (Pub : Type) where
  clock : Time
  signed : List (Pub × Bytes)
  marshalled : List OpaqueState := []
  issued : List Issue := []

inductive Event (Priv Pub ε : Type) where
  | sign (key : Pub) (msg : Bytes)
  | serve (call : Call Priv ε)

namespace World

variable (E)

/-- The reply of a server that ran without an error goes out. -/
def reply (w : World Pub) (call : Call Priv ε) (h : Server Priv) : World Pub :=
  match h.state with
  | .challengeClient | .signChallenge =>
    { w with
      marshalled := h.opaqueState :: w.marshalled
      issued := ⟨h.opaqueState.challengeClient, call.hostname, call.now⟩ :: w.issued }
  | .verifyChallenge => { w with marshalled := h.opaqueState :: w.marshalled }
  | .verifyBearer => w

def step (w : World Pub) : Event Priv Pub ε → World Pub
  | .sign key msg => { w with signed := (key, msg) :: w.signed }
  | .serve call =>
    let w := { w with clock := call.now' }
    match call.serve E with
    | .error _ => w
    | .ok h => w.reply call h

/-- An opaque value or a bearer token whose HMAC is right was made by a server. -/
def Unforged (w : World Pub) (b64 : Option Bytes) : Prop :=
  ∀ d fields, E.decodeB64 (b64.getD []) = .ok d → authenticated E d = some fields →
    ∃ o ∈ w.marshalled, E.json.encode o = .ok fields

/-- Ideal HMACs and signatures, hosts whose names are text, and a clock that does not go
back. -/
structure IdealCall (w : World Pub) (call : Call Priv ε) : Prop where
  clock : w.clock ≤ call.now
  clock' : call.now ≤ call.now'
  hostname : Utf8.valid call.hostname = true
  challenge : Unforged E w call.params.opaqueB64
  token : Unforged E w call.params.bearerTokenB64
  signature : ∀ sig key msg, E.decodeB64 (call.params.sigB64.getD []) = .ok sig →
    E.signing.verify key msg sig = .ok true → (key, msg) ∈ w.signed

def Ideal (w : World Pub) : Event Priv Pub ε → Prop
  | .sign _ _ => True
  | .serve call => IdealCall E w call

end World

/-- States that JSON gives back: the texts are valid, and a peer ID is one of a key. -/
structure Readable (E : ServerExternals Priv Pub ε) (o : OpaqueState) : Prop where
  hostname : Utf8.valid o.hostname = true
  challenge : Utf8.valid o.challengeClient = true
  peerID : o.peerID = [] ∨ ∃ key, E.idFromPublicKey key = .ok o.peerID

/-- What is taken for granted of base64, JSON and the HMAC: base64 is ASCII, JSON gives back
states that are readable, and the HMAC has a fixed size. -/
structure ServerExternals.Faithful (E : ServerExternals Priv Pub ε) : Prop where
  ascii : ∀ bs, ∀ b ∈ E.encodeB64 bs, b < 0x80
  json : ∀ {o fields}, Readable E o → E.json.encode o = .ok fields → E.json.decode fields = .ok o
  hmac : ∀ fields, (E.hmacSum fields).length = E.hmacSize

/-! ## What goes out -/

/-- The opaque states that went out can be read back, and those that are no tokens are of
challenges that were given out. -/
structure World.Kept (E : ServerExternals Priv Pub ε) (w : World Pub) : Prop where
  readable : ∀ o ∈ w.marshalled, Readable E o
  issued : ∀ o ∈ w.marshalled, o.isToken = false →
    ⟨o.challengeClient, o.hostname, o.createdTime⟩ ∈ w.issued
  past : ∀ i ∈ w.issued, i.time ≤ w.clock

namespace Call

variable {call : Call Priv ε} {h : Server Priv}

/-- A request that succeeds, from the state its header asks for. -/
theorem serve_ok (hserve : call.serve E = .ok h) :
    ∃ h₀ : Server Priv, h₀.run E call.now call.now' call.random = .ok h ∧
      h₀.hostname = call.hostname ∧ h₀.privKey = call.privKey ∧ h₀.tokenTTL = call.tokenTTL ∧
      h₀.p = call.params ∧ h₀.opaqueState = {} := by
  obtain ⟨h₀, hparse, hrun⟩ := bind_eq_ok.mp hserve
  have heq := parseHeaderVal_ok (mapError_eq_ok.mp hparse)
  refine ⟨h₀, hrun, ?_⟩
  rw [heq]
  exact ⟨rfl, rfl, rfl, rfl, rfl⟩

/-- A server runs in the state its header asks for, and says so. -/
theorem run_state {h₀ : Server Priv} {now now' : Time} {random : Except ε Bytes}
    (hrun : h₀.run E now now' random = .ok h) : h.state = h₀.state := by
  unfold run at hrun
  dsimp only at hrun
  split at hrun
  · exact (runSignChallenge_ok hrun).state
  · exact (runChallengeClient_ok hrun).state
  · obtain ⟨_, _, _, _, _, _, hans⟩ := runVerifyChallenge_ok hrun
    exact hans.serverState
  · obtain ⟨_, _, _, _, _, _, _, hstate⟩ := runVerifyBearer_ok (mapError_eq_ok.mp hrun)
    exact hstate

/-- What goes out with a challenge. -/
theorem serve_challenge (hserve : call.serve E = .ok h)
    (hstate : h.state = .challengeClient ∨ h.state = .signChallenge) :
    h.opaqueState.isToken = false ∧ h.opaqueState.peerID = [] ∧
      (∃ r, h.opaqueState.challengeClient = E.encodeB64 r) ∧
      h.opaqueState.hostname = call.hostname ∧ h.opaqueState.createdTime = call.now := by
  obtain ⟨h₀, hrun, hhost, -, -, -, hblank⟩ := serve_ok hserve
  rw [run_state hrun] at hstate
  have hc : Server.Challenges E { h₀ with ran := true } h call.now := by
    unfold run at hrun
    dsimp only at hrun
    split at hrun
    · exact runSignChallenge_ok hrun
    · exact runChallengeClient_ok hrun
    · rename_i hs
      simp [hs] at hstate
    · rename_i hs
      simp [hs] at hstate
  refine ⟨?_, ?_, hc.challenge, ?_, hc.createdTime⟩
  · rw [hc.isToken, hblank]
  · rw [hc.peerID, hblank]
  · rw [hc.hostname, ← hhost]

/-- Who is let in by an answer to a challenge. -/
theorem serve_answer (hserve : call.serve E = .ok h) (hstate : h.state = .verifyChallenge) :
    ∃ d fields o pubKey spk sig, E.decodeB64 (call.params.opaqueB64.getD []) = .ok d ∧
      authenticated E d = some fields ∧ E.json.decode fields = .ok o ∧
      call.now ≤ o.createdTime + challengeTTL ∧ o.isToken = false ∧ o.hostname = call.hostname ∧
      E.marshalPublicKey (E.signing.getPublic call.privKey) = .ok spk ∧
      E.decodeB64 (call.params.sigB64.getD []) = .ok sig ∧
      E.signing.verify pubKey (clientProof o.challengeClient spk call.hostname) sig = .ok true ∧
      E.idFromPublicKey pubKey = .ok h.opaqueState.peerID ∧
      h.opaqueState = { isToken := true, peerID := h.opaqueState.peerID,
                        hostname := call.hostname, createdTime := call.now' } := by
  obtain ⟨h₀, hrun, hhost, hkey, -, hp, -⟩ := serve_ok hserve
  rw [run_state hrun] at hstate
  simp only [run, hstate] at hrun
  obtain ⟨d, fields, o, pubKey, spk, sig, hans⟩ := runVerifyChallenge_ok hrun
  rw [← hhost, ← hkey, ← hp]
  exact ⟨d, fields, o, pubKey, spk, sig, hans.value, hans.authentic, hans.state, hans.young,
    hans.challenge, hans.hostname.symm, hans.serverKey, hans.signature, hans.verified, hans.peerID,
    hans.token⟩

/-- Who is let in by a token. -/
theorem serve_bearer (hserve : call.serve E = .ok h) (hstate : h.state = .verifyBearer) :
    ∃ d fields, E.decodeB64 (call.params.bearerTokenB64.getD []) = .ok d ∧
      authenticated E d = some fields ∧ E.json.decode fields = .ok h.opaqueState ∧
      h.opaqueState.isToken = true ∧
      call.now ≤ h.opaqueState.createdTime + call.tokenTTL := by
  obtain ⟨h₀, hrun, -, -, httl, hp, -⟩ := serve_ok hserve
  rw [run_state hrun] at hstate
  simp only [run, hstate] at hrun
  obtain ⟨d, fields, hd, hauth, hdec, htoken, hyoung, -⟩ :=
    runVerifyBearer_ok (mapError_eq_ok.mp hrun)
  rw [← hp, ← httl]
  exact ⟨d, fields, hd, hauth, hdec, htoken, hyoung⟩

end Call

namespace World

variable {w : World Pub}

theorem Kept.challenged (hw : w.Kept E) (ho : Readable E o) (htime : o.createdTime ≤ w.clock) :
    Kept E { w with
      marshalled := o :: w.marshalled
      issued := ⟨o.challengeClient, o.hostname, o.createdTime⟩ :: w.issued } where
  readable := forall_mem_cons.mpr ⟨ho, hw.readable⟩
  issued := forall_mem_cons.mpr
    ⟨fun _ => mem_cons_self, fun o' ho' h => mem_cons_of_mem _ (hw.issued o' ho' h)⟩
  past := forall_mem_cons.mpr ⟨htime, hw.past⟩

section

variable (hE : E.Faithful)
include hE

theorem Kept.reply {call : Call Priv ε} {h : Server Priv} (hw : w.Kept E)
    (hclock : call.now ≤ w.clock) (hhost : Utf8.valid call.hostname = true)
    (hserve : call.serve E = .ok h) : (w.reply call h).Kept E := by
  have hchallenge (hstate : h.state = .challengeClient ∨ h.state = .signChallenge) :
      Kept E { w with
        marshalled := h.opaqueState :: w.marshalled
        issued := ⟨h.opaqueState.challengeClient, call.hostname, call.now⟩ :: w.issued } := by
    obtain ⟨-, hid, ⟨r, hr⟩, hname, htime⟩ := Call.serve_challenge hserve hstate
    rw [← hname] at hhost ⊢
    rw [← htime] at hclock ⊢
    exact hw.challenged ⟨hhost, hr ▸ Utf8.valid_of_ascii (hE.ascii r), .inl hid⟩ hclock
  unfold World.reply
  cases hstate : h.state with
  | challengeClient => exact hchallenge (.inl hstate)
  | signChallenge => exact hchallenge (.inr hstate)
  | verifyChallenge =>
    obtain ⟨_, _, _, key, _, _, -, -, -, -, -, -, -, -, -, hid, htoken⟩ :=
      Call.serve_answer hserve hstate
    constructor
    · refine forall_mem_cons.mpr ⟨?_, hw.readable⟩
      rw [htoken]
      exact ⟨hhost, Utf8.valid_of_ascii (by simp), .inr ⟨key, hid⟩⟩
    · refine forall_mem_cons.mpr ⟨?_, hw.issued⟩
      rw [htoken]
      intro hfalse
      cases hfalse
    · exact hw.past
  | verifyBearer => exact hw

theorem Kept.step {ev : Event Priv Pub ε} (hw : w.Kept E) (hev : Ideal E w ev) :
    (w.step E ev).Kept E := by
  cases ev with
  | sign key msg => exact ⟨hw.readable, hw.issued, hw.past⟩
  | serve call =>
    have hlater : Kept E { w with clock := call.now' } :=
      ⟨hw.readable, hw.issued, fun i hi =>
        (hw.past i hi).trans (hev.clock.trans hev.clock')⟩
    unfold World.step
    dsimp only
    split
    · exact hlater
    · rename_i h hserve
      exact hlater.reply hE hev.clock' hev.hostname hserve

theorem kept_of_reach {clock : Time} {signed : List (Pub × Bytes)}
    (hr : Reach (step E) (Ideal E) { clock, signed } w) : w.Kept E := by
  refine hr.invariant ?_ fun w ev _ hev hw => hw.step hE hev
  constructor <;> intro _ h <;> cases h

variable {fields : Bytes}

/-- What JSON gives back for fields under a right HMAC is a state that went out. -/
theorem Kept.decode (hw : w.Kept E) {b64 : Option Bytes} (hun : Unforged E w b64)
    (hd : E.decodeB64 (b64.getD []) = .ok d) (hauth : authenticated E d = some fields)
    (hdec : E.json.decode fields = .ok o) : o ∈ w.marshalled := by
  obtain ⟨o', ho', henc⟩ := hun d fields hd hauth
  have hdec' := hE.json (hw.readable o' ho') henc
  rw [hdec] at hdec'
  cases hdec'
  exact ho'

/-- A state that went out is read back from its opaque value. -/
theorem Kept.read (hw : w.Kept E) {o' : OpaqueState} (ho : o ∈ w.marshalled)
    (hd : marshalOpaque E o = .ok d) (hauth : authenticated E d = some fields)
    (hdec : E.json.decode fields = .ok o') : o' = o := by
  obtain ⟨fields', henc, hd⟩ := bind_eq_ok.mp hd
  have henc := mapError_eq_ok.mp henc
  cases hd
  have hfields : fields = fields' := by
    unfold authenticated at hauth
    split at hauth
    · cases hauth
    split at hauth
    · cases hauth
    · cases hauth
      rw [← hE.hmac fields', drop_left]
  subst hfields
  have hdec' := hE.json (hw.readable o ho) henc
  rw [hdec] at hdec'
  exact Except.ok.inj hdec'

end

end World

/-- Whoever is let in by an answer has signed a challenge, for this server and host, that was
given out for this host no longer than its lifetime ago. A token does not pass for a
challenge, nor a challenge for a token. -/
theorem challenges_fresh (hE : E.Faithful) {clock : Time} {signed : List (Pub × Bytes)}
    {w : World Pub} (hr : Reach (World.step E) (World.Ideal E) { clock, signed } w)
    (call : Call Priv ε) (hcall : World.IdealCall E w call) (h : Server Priv)
    (hserve : call.serve E = .ok h) :
    (∀ P, h.state = .verifyChallenge → (h.peerID : Except (HandshakeErr ε) Bytes) = .ok P →
      ∃ key spk i, E.idFromPublicKey key = .ok P ∧
        E.marshalPublicKey (E.signing.getPublic call.privKey) = .ok spk ∧
        (key, clientProof i.challenge spk call.hostname) ∈ w.signed ∧
        (∀ c s H, clientProof c s H = clientProof i.challenge spk call.hostname →
          c = i.challenge ∧ s = spk ∧ H = call.hostname) ∧
        i ∈ w.issued ∧ i.hostname = call.hostname ∧ i.time ≤ call.now ∧
        call.now ≤ i.time + challengeTTL) ∧
    (∀ o ∈ w.marshalled, o.isToken = true → ∀ d, marshalOpaque E o = .ok d →
      E.decodeB64 (call.params.opaqueB64.getD []) = .ok d → h.state ≠ .verifyChallenge) ∧
    (∀ o ∈ w.marshalled, o.isToken = false → ∀ d, marshalOpaque E o = .ok d →
      E.decodeB64 (call.params.bearerTokenB64.getD []) = .ok d → h.state ≠ .verifyBearer) := by
  have hw := World.kept_of_reach hE hr
  refine ⟨?_, ?_, ?_⟩
  · intro P hstate hP
    obtain ⟨d, fields, o, key, spk, sig, hd, hauth, hdec, hyoung, htoken, hhost, hspk, hsig, hver,
      hid, -⟩ := Call.serve_answer hserve hstate
    have ho := hw.decode hE hcall.challenge hd hauth hdec
    have hissued := hw.issued o ho htoken
    refine ⟨key, spk, ⟨o.challengeClient, o.hostname, o.createdTime⟩, peerID_ok hP ▸ hid, hspk,
      hcall.signature sig key _ hsig hver, fun c s H => clientProof_inj, hissued, hhost,
      (hw.past _ hissued).trans hcall.clock, hyoung⟩
  · intro o ho htoken d hd hdec hstate
    obtain ⟨d', fields, o', -, -, -, hd', hauth, hjson, -, hchal, -⟩ :=
      Call.serve_answer hserve hstate
    rw [hdec] at hd'
    cases hd'
    rw [hw.read hE ho hd hauth hjson, htoken] at hchal
    cases hchal
  · intro o ho htoken d hd hdec hstate
    obtain ⟨d', fields, hd', hauth, hjson, hbearer, -⟩ := Call.serve_bearer hserve hstate
    rw [hdec] at hd'
    cases hd'
    rw [hw.read hE ho hd hauth hjson, htoken] at hbearer
    cases hbearer

/-! A host with one client, whose key is no secret: base64 keeps the ASCII bytes, a signature
is the message behind a mark and a host has a name of one byte. -/

/-- Challenges and tokens as bytes. -/
def compact (o : OpaqueState) : Bytes :=
  (if o.isToken then 0x74 else 0x63) :: UInt8.ofNat o.createdTime.toNat ::
    (o.hostname ++ if o.isToken then o.peerID else o.challengeClient)

def expand : Bytes → Except Unit OpaqueState
  | 0x63 :: t :: H :: c => .ok { challengeClient := c, hostname := [H], createdTime := t.toNat }
  | 0x74 :: t :: H :: c =>
    .ok { isToken := true, peerID := c, hostname := [H], createdTime := t.toNat }
  | _ => .error ()

def plainExternals : ServerExternals Unit Unit Unit where
  signing := Signing.ofFun (0x21 :: ·)
  marshalPublicKey _ := .ok (bytes "s")
  unmarshalPublicKey _ := .ok ()
  idFromPublicKey _ := .ok (bytes "p")
  encodeB64 bs := bs.filter (· < 0x80)
  decodeB64 := .ok
  json := {
    encode := fun o =>
      match expand (compact o) with
      | .ok o' => if o' = o then .ok (compact o) else .error ()
      | .error err => .error err
    decode := expand }
  hmacSize := 1
  hmacSum _ := bytes "m"

theorem plainExternals_faithful : plainExternals.Faithful where
  ascii bs b hb := by
    simpa using (mem_filter.mp hb).2
  json := by
    intro o fields _ henc
    simp only [plainExternals] at henc ⊢
    split at henc
    · rename_i o' hexp
      split at henc
      · rename_i heq
        cases henc
        rw [hexp, heq]
      · cases henc
    · cases henc
  hmac _ := by
    change (bytes "m").length = 1
    decide +kernel

def asking : Call Unit Unit where
  hostname := bytes "h"
  privKey := ()
  tokenTTL := 0
  header := []
  now := 65
  now' := 66
  random := .ok (bytes "c")

def answering : Call Unit Unit where
  hostname := bytes "h"
  privKey := ()
  tokenTTL := 0
  header := peerIDAuthScheme ++ bytes " opaque=\"mcAhc\", sig=\"!" ++
    clientProof (bytes "c") (bytes "s") (bytes "h") ++
    bytes "\", public-key=\"k\", challenge-server=\"0123456789abcdef0123456789abcdef\""
  now := 67
  now' := 68
  random := .error ()

/-- The client has been given a challenge and has signed it. -/
def asked : World Unit :=
  [.serve asking, .sign () (clientProof (bytes "c") (bytes "s") (bytes "h"))].foldl
    (World.step plainExternals) { clock := 60, signed := [] }

theorem eq_ok_of_toOption {α : Type} {x : Except ε α} {a : α} (h : x.toOption = some a) :
    x = .ok a := by
  cases x with
  | error err => cases h
  | ok b => exact congrArg Except.ok (Option.some.inj h)

theorem unforged_none (w : World Unit) : World.Unforged plainExternals w none := by
  rintro d fields ⟨⟩ ⟨⟩

theorem unforged_of {w : World Unit} {v : Bytes} (ho : o ∈ w.marshalled)
    (henc : (plainExternals.json.encode o).toOption = authenticated plainExternals v) :
    World.Unforged plainExternals w (some v) := by
  intro d fields hd hauth
  cases hd
  exact ⟨o, ho, eq_ok_of_toOption (henc.trans hauth)⟩

/-- What the two requests carry, what the first one leaves behind and how the second ends. -/
theorem plain_values :
    Utf8.valid (bytes "h") = true ∧ (bytes "p").isEmpty = false ∧ asking.params = {} ∧
    answering.params =
      { challengeServer := some (bytes "0123456789abcdef0123456789abcdef")
        opaqueB64 := some (bytes "mcAhc")
        publicKeyB64 := some (bytes "k")
        sigB64 := some (0x21 :: clientProof (bytes "c") (bytes "s") (bytes "h")) } ∧
    asked.clock ≤ 67 ∧
    asked.marshalled = [{ challengeClient := bytes "c", hostname := bytes "h", createdTime := 65 }] ∧
    (plainExternals.json.encode
        { challengeClient := bytes "c", hostname := bytes "h", createdTime := 65 }).toOption =
      authenticated plainExternals (bytes "mcAhc") ∧
    ((answering.serve plainExternals).toOption.map fun h =>
      (h.state, h.ran, h.opaqueState.peerID)) = some (.verifyChallenge, true, bytes "p") := by
  decide +kernel

theorem asking_ideal : World.IdealCall plainExternals { clock := 60, signed := [] } asking := by
  obtain ⟨hhost, -, hparams, -⟩ := plain_values
  constructor
  · decide
  · decide
  · exact hhost
  · rw [hparams]
    exact unforged_none _
  · rw [hparams]
    exact unforged_none _
  · intro sig key msg hsig hver
    rw [hparams] at hsig
    cases hsig
    cases Signing.ofFun_verify.mp hver

theorem answering_ideal : World.IdealCall plainExternals asked answering := by
  obtain ⟨hhost, -, -, hparams, hclock, hmarshalled, henc, -⟩ := plain_values
  constructor
  · exact hclock
  · decide
  · exact hhost
  · rw [hparams]
    exact unforged_of (hmarshalled ▸ mem_singleton.mpr rfl) henc
  · rw [hparams]
    exact unforged_none _
  · intro sig key msg hsig hver
    rw [hparams] at hsig
    cases hsig
    cases Signing.ofFun_verify.mp hver
    exact mem_cons_self

theorem asked_reach : Reach (.step plainExternals) (World.Ideal plainExternals)
    { clock := 60, signed := [] } asked :=
  .foldl .init ⟨asking_ideal, trivial, trivial⟩

theorem serve_plain {call : Call Unit Unit} {state : ServerState}
    (hrun : ((call.serve plainExternals).toOption.map fun h =>
      (h.state, h.ran, h.opaqueState.peerID)) = some (state, true, bytes "p"))
    (hin : state = .verifyChallenge ∨ state = .verifyBearer) :
    ∃ h, call.serve plainExternals = .ok h ∧ h.state = state ∧
      (h.peerID : Except (HandshakeErr Unit) Bytes) = .ok (bytes "p") := by
  obtain ⟨h, hserve, hfields⟩ := Option.map_eq_some_iff.mp hrun
  simp only [Prod.mk.injEq] at hfields
  obtain ⟨hstate, hran, hid⟩ := hfields
  refine ⟨h, eq_ok_of_toOption hserve, hstate, ?_⟩
  rcases hin with rfl | rfl
  all_goals
    simp only [peerID, hstate, hran, hid, plain_values.2.1]
    rfl

theorem challenges_fresh_answering : ∃ key i, plainExternals.idFromPublicKey key = .ok (bytes "p") ∧
    (key, clientProof i.challenge (bytes "s") (bytes "h")) ∈ asked.signed ∧ i ∈ asked.issued ∧
    i.hostname = bytes "h" ∧ i.time ≤ 67 ∧ 67 ≤ i.time + challengeTTL := by
  obtain ⟨-, -, -, -, -, -, -, hrun⟩ := plain_values
  obtain ⟨h, hserve, hstate, hid⟩ := serve_plain hrun (.inl rfl)
  obtain ⟨key, spk, i, hkey, hspk, hsigned, -, hi, hhost, hpast, hyoung⟩ :=
    (challenges_fresh plainExternals_faithful asked_reach answering answering_ideal h hserve).1
      _ hstate hid
  cases hspk
  exact ⟨key, i, hkey, hsigned, hi, hhost, hpast, hyoung⟩

end Dep2p.HttpAuth
