import Dep2p.HttpAuth.Handshake
import Dep2p.Lib.Reach

/- The client of the HTTP peer ID handshake (`handshake/client.go`, `auth/client.go`).

   A client either begins with a challenge of its own or answers one of the server's and
   adds its own then. It takes the first public key that a server names, and has
   authenticated the server once that key has signed the client's challenge. The request
   that the handshake is for goes out with its body only then.

   Errors of `ParseHeader` are ignored, so both steps return the client as well as an error.

   Correspondence (Go ↔ Lean):
     `PeerIDAuthHandshakeClient`, its states         ↔ `Client`, `ClientState`
     `ParseHeader`, `Run`                            ↔ `parseHeader`, `run`
     `PeerID`, `ServerAuthenticated`                 ↔ `peerID`, `serverAuthenticated`

   What a step can do is said once, in `Parsed` and `Ran`. -/
namespace Dep2p.HttpAuth

open Lib

inductive ClientState where
  | signChallenge | verifyChallenge | done
  | initiateChallenge | verifyAndSignChallenge | waitingForBearer
  deriving DecidableEq, Repr

structure Client (Priv Pub : Type) where
  hostname : Bytes
  privKey : Priv
  serverPeerID : Bytes := []
  serverPubKey : Option Pub := none
  state : ClientState := .signChallenge
  p : Params := {}
  hb : HeaderBuilder := {}
  challengeServer : Bytes := []

/-- The two fields of an HTTP header that are read. -/
structure Header where
  wwwAuthenticate : Bytes := []
  authenticationInfo : Bytes := []

variable {ε Priv Pub : Type} (E : Externals Priv Pub ε)

namespace Client

/-- The field that a state reads. -/
def headerVal (h : Client Priv Pub) (header : Header) : Bytes :=
  match h.state with
  | .signChallenge | .verifyAndSignChallenge => header.wwwAuthenticate
  | .verifyChallenge | .waitingForBearer => header.authenticationInfo
  | _ => []

/-- The key of the server is the first one that can be parsed. -/
def learnKey (h : Client Priv Pub) : Client Priv Pub × Except (HandshakeErr ε) Unit :=
  let publicKeyB64 := h.p.publicKeyB64.getD []
  if h.serverPubKey.isNone ∧ publicKeyB64 ≠ [] then
    match E.decodeB64 publicKeyB64 with
    | .error err => (h, .error (.foreign err))
    | .ok serverPubKeyBytes =>
      match E.unmarshalPublicKey serverPubKeyBytes with
      | .error err => ({ h with serverPubKey := none }, .error (.foreign err))
      | .ok key =>
        match E.idFromPublicKey key with
        | .error err => ({ h with serverPubKey := some key, serverPeerID := [] }, .error (.foreign err))
        | .ok id => ({ h with serverPubKey := some key, serverPeerID := id }, .ok ())
  else (h, .ok ())

def parseHeader (h : Client Priv Pub) (header : Header) :
    Client Priv Pub × Except (HandshakeErr ε) Unit :=
  if h.state = .done ∨ h.state = .initiateChallenge then (h, .ok ())
  else
    let headerVal := h.headerVal header
    if headerVal.isEmpty then ({ h with p := {} }, .error .errMissingChallenge)
    else
      match parsePeerIDAuthSchemeParams {} headerVal with
      | (p, .error err) => ({ h with p }, .error err)
      | (p, .ok ()) => learnKey E { h with p }

def addChallengeServerParam (h : Client Priv Pub) (random : Except ε Bytes) :
    Client Priv Pub × Except (HandshakeErr ε) Unit :=
  match random with
  | .error err => (h, .error (.foreign err))
  | .ok challenge =>
    let challengeServer := E.encodeB64 challenge
    ({ h with challengeServer, hb := h.hb.writeParam (bytes "challenge-server") challengeServer },
      .ok ())

def verifySig (h : Client Priv Pub) (clientPubKeyBytes : Bytes) : Except (HandshakeErr ε) Unit :=
  let sigB64 := h.p.sigB64.getD []
  if sigB64.isEmpty then .error .noSignature
  else do
    let sig ← foreign (E.decodeB64 sigB64)
    HttpAuth.verifySig E h.serverPubKey peerIDAuthScheme
      (serverParts h.challengeServer clientPubKeyBytes h.hostname) sig

/-- The signature on the challenge of the server. -/
def clientSig (h : Client Priv Pub) : Except (HandshakeErr ε) Bytes :=
  match h.serverPubKey with
  | none => .error .noPublicKey
  | some key => do
    let serverPubKeyBytes ← foreign (E.marshalPublicKey key)
    sign E h.privKey peerIDAuthScheme
      (clientParts (h.p.challengeClient.getD []) serverPubKeyBytes h.hostname)

def addSigParam (h : Client Priv Pub) : Client Priv Pub × Except (HandshakeErr ε) Unit :=
  match clientSig E h with
  | .error err => (h, .error err)
  | .ok sig => ({ h with hb := h.hb.writeParamB64 E (bytes "sig") sig }, .ok ())

def runSignChallenge (h : Client Priv Pub) (clientPubKeyBytes : Bytes) (random : Except ε Bytes) :
    Client Priv Pub × Except (HandshakeErr ε) Unit :=
  if (h.p.challengeClient.getD []).length < challengeLen then (h, .error .challengeTooShort)
  else
    let h := { h with
      hb := (h.hb.writeScheme peerIDAuthScheme).writeParamB64 E (bytes "public-key") clientPubKeyBytes }
    match addChallengeServerParam E h random with
    | (h, .error err) => (h, .error err)
    | (h, .ok ()) =>
      match addSigParam E h with
      | (h, .error err) => (h, .error err)
      | (h, .ok ()) =>
        ({ h with
          hb := h.hb.writeParam (bytes "opaque") (h.p.opaqueB64.getD [])
          state := .verifyChallenge }, .ok ())

/-- The token goes into the header of the requests to come. -/
def finish (h : Client Priv Pub) : Client Priv Pub :=
  { h with
    hb := (h.hb.writeScheme peerIDAuthScheme).writeParam (bytes "bearer") (h.p.bearerTokenB64.getD [])
    state := .done }

/-- An error of `addChallengeServerParam` is ignored here, and one of `addSigParam` where a
server has proved itself first. -/
def run (h : Client Priv Pub) (random : Except ε Bytes) :
    Client Priv Pub × Except (HandshakeErr ε) Unit :=
  if h.state = .done then (h, .ok ())
  else
    let h := { h with hb := {} }
    match E.marshalPublicKey (E.signing.getPublic h.privKey) with
    | .error err => (h, .error (.foreign err))
    | .ok clientPubKeyBytes =>
      match h.state with
      | .initiateChallenge =>
        let h := { h with hb := h.hb.writeScheme peerIDAuthScheme }
        let h := (addChallengeServerParam E h random).1
        ({ h with
          hb := h.hb.writeParamB64 E (bytes "public-key") clientPubKeyBytes
          state := .verifyAndSignChallenge }, .ok ())
      | .verifyAndSignChallenge =>
        if (h.p.sigB64.getD []).isEmpty ∧ ¬ (h.p.challengeClient.getD []).isEmpty then
          -- The server has refused and gives out a challenge of its own.
          runSignChallenge E { h with state := .signChallenge } clientPubKeyBytes random
        else
          match verifySig E h clientPubKeyBytes with
          | .error err => (h, .error err)
          | .ok () =>
            let h := { h with
              hb := (h.hb.writeScheme peerIDAuthScheme).writeParam (bytes "opaque")
                (h.p.opaqueB64.getD []) }
            let h := (addSigParam E h).1
            ({ h with state := .waitingForBearer }, .ok ())
      | .waitingForBearer => (h.finish, .ok ())
      | .signChallenge => runSignChallenge E h clientPubKeyBytes random
      | .verifyChallenge =>
        match verifySig E h clientPubKeyBytes with
        | .error err => (h, .error err)
        | .ok () => (h.finish, .ok ())
      | .done => (h, .error .wrongState)

/-- The states after the server has proved itself. -/
def Proved (h : Client Priv Pub) : Prop := h.state = .done ∨ h.state = .waitingForBearer

instance (h : Client Priv Pub) : Decidable h.Proved := inferInstanceAs (Decidable (_ ∨ _))

def peerID (h : Client Priv Pub) : Except (HandshakeErr ε) Bytes :=
  if ¬ h.Proved then .error .wrongState
  else if h.serverPeerID.isEmpty then .error .noPeerID
  else .ok h.serverPeerID

def serverAuthenticated (h : Client Priv Pub) : Bool := h.Proved ∧ h.serverPeerID ≠ []

variable {h : Client Priv Pub}

theorem peerID_ok {P : Bytes}
    (hid : (h.peerID : Except (HandshakeErr ε) Bytes) = .ok P) :
    h.Proved ∧ h.serverPeerID ≠ [] ∧ h.serverPeerID = P := by
  unfold peerID at hid
  split at hid
  · cases hid
  rename_i hp
  split at hid
  · cases hid
  · rename_i hne
    exact ⟨not_not.mp hp, fun hnil => hne (List.isEmpty_iff.mpr hnil), Except.ok.inj hid⟩

/-- A server that is authenticated is reported. -/
theorem peerID_of_authenticated (hauth : h.serverAuthenticated = true) :
    (h.peerID : Except (HandshakeErr ε) Bytes) = .ok h.serverPeerID := by
  simp only [serverAuthenticated, decide_eq_true_eq] at hauth
  have hne : ¬ h.serverPeerID.isEmpty = true := fun hnil => hauth.2 (List.isEmpty_iff.mp hnil)
  rw [peerID, if_neg (not_not.mpr hauth.1), if_neg hne]

/-! ## What one step can do -/

variable {E} {h c : Client Priv Pub} {r : Bytes}

/-- A header changes the parameters, and names the key of the server if there is none. -/
structure Parsed (E : Externals Priv Pub ε) (h c : Client Priv Pub) (header : Header) : Prop where
  hostname : c.hostname = h.hostname
  privKey : c.privKey = h.privKey
  state : c.state = h.state
  challengeServer : c.challengeServer = h.challengeServer
  params : c.p = h.p ∨ c.p = {} ∨
    c.p = (parsePeerIDAuthSchemeParams (ε := ε) {} header.wwwAuthenticate).1 ∨
    c.p = (parsePeerIDAuthSchemeParams (ε := ε) {} header.authenticationInfo).1
  key : c.serverPubKey = h.serverPubKey ∧ c.serverPeerID = h.serverPeerID ∨
    h.serverPubKey = none ∧ ∃ key, c.serverPubKey = some key ∧
      (c.serverPeerID = [] ∨ E.idFromPublicKey key = .ok c.serverPeerID)

theorem headerVal_cases (header : Header) (hne : h.headerVal header ≠ []) :
    h.headerVal header = header.wwwAuthenticate ∨ h.headerVal header = header.authenticationInfo := by
  unfold headerVal at hne ⊢
  cases hstate : h.state <;> simp_all

theorem learnKey_spec (h : Client Priv Pub) :
    ∃ key id, (learnKey E h).1 = { h with serverPubKey := key, serverPeerID := id } ∧
      (key = h.serverPubKey ∧ id = h.serverPeerID ∨
        h.serverPubKey = none ∧ ∃ k, key = some k ∧ (id = [] ∨ E.idFromPublicKey k = .ok id)) := by
  unfold learnKey
  dsimp only
  split
  · rename_i hlearn
    have hnone : h.serverPubKey = none := Option.isNone_iff_eq_none.mp hlearn.1
    split
    · exact ⟨_, _, rfl, .inl ⟨rfl, rfl⟩⟩
    split
    · exact ⟨none, h.serverPeerID, rfl, .inl ⟨hnone.symm, rfl⟩⟩
    rename_i key _
    split
    · exact ⟨some key, [], rfl, .inr ⟨hnone, key, rfl, .inl rfl⟩⟩
    · rename_i id hid
      exact ⟨some key, id, rfl, .inr ⟨hnone, key, rfl, .inr hid⟩⟩
  · exact ⟨_, _, rfl, .inl ⟨rfl, rfl⟩⟩

theorem parseHeader_spec (h : Client Priv Pub) (header : Header) :
    Parsed E h (h.parseHeader E header).1 header := by
  unfold parseHeader
  split
  · exact ⟨rfl, rfl, rfl, rfl, .inl rfl, .inl ⟨rfl, rfl⟩⟩
  dsimp only
  split
  · exact ⟨rfl, rfl, rfl, rfl, .inr (.inl rfl), .inl ⟨rfl, rfl⟩⟩
  rename_i hne
  have hval := headerVal_cases header fun hnil => hne (List.isEmpty_iff.mpr hnil)
  have hparams : (parsePeerIDAuthSchemeParams (ε := ε) {} (h.headerVal header)).1 =
        (parsePeerIDAuthSchemeParams (ε := ε) {} header.wwwAuthenticate).1 ∨
      (parsePeerIDAuthSchemeParams (ε := ε) {} (h.headerVal header)).1 =
        (parsePeerIDAuthSchemeParams (ε := ε) {} header.authenticationInfo).1 := by
    rcases hval with hval | hval
    · exact .inl (by rw [hval])
    · exact .inr (by rw [hval])
  split
  · rename_i p err hparse
    rw [hparse] at hparams
    exact ⟨rfl, rfl, rfl, rfl, .inr (.inr hparams), .inl ⟨rfl, rfl⟩⟩
  · rename_i p hparse
    rw [hparse] at hparams
    obtain ⟨key, id, hlearn, hkey⟩ := learnKey_spec { h with p }
    rw [hlearn]
    refine ⟨rfl, rfl, rfl, rfl, .inr (.inr hparams), ?_⟩
    rcases hkey with hsame | ⟨hnone, k, hk, hid⟩
    · exact .inl hsame
    · exact .inr ⟨hnone, k, hk, hid⟩

/-- The key of the server has signed the challenge, for the client's key and host. -/
def Verified (E : Externals Priv Pub ε) (h : Client Priv Pub) : Prop :=
  ∃ b64 sig key cpk, h.p.sigB64 = some b64 ∧ E.decodeB64 b64 = .ok sig ∧
    h.serverPubKey = some key ∧ E.marshalPublicKey (E.signing.getPublic h.privKey) = .ok cpk ∧
    E.signing.verify key (serverProof h.challengeServer cpk h.hostname) sig = .ok true

/-- What a run can change: the challenge, which it draws, and the state. -/
structure Ran (E : Externals Priv Pub ε) (h c : Client Priv Pub) (r : Bytes) : Prop where
  hostname : c.hostname = h.hostname
  privKey : c.privKey = h.privKey
  params : c.p = h.p
  key : c.serverPubKey = h.serverPubKey ∧ c.serverPeerID = h.serverPeerID
  challenge : c.challengeServer = h.challengeServer ∨ c.challengeServer = E.encodeB64 r
  /-- Past the first states a challenge is the one drawn or the one there was. -/
  drawn : c.state ≠ .signChallenge → c.state ≠ .initiateChallenge →
    c.challengeServer = E.encodeB64 r ∨
      c.challengeServer = h.challengeServer ∧ h.state ≠ .signChallenge ∧ h.state ≠ .initiateChallenge
  /-- The last states are reached with a signature on the challenge. -/
  proved : c.Proved → c.challengeServer = h.challengeServer ∧ (h.Proved ∨ Verified E h)
  /-- They are not left. -/
  forward : h.Proved → c.Proved

variable {cpk : Bytes}

theorem verifySig_verified
    (hcpk : E.marshalPublicKey (E.signing.getPublic h.privKey) = .ok cpk)
    (hok : verifySig E h cpk = .ok ()) : Verified E h := by
  unfold verifySig at hok
  dsimp only at hok
  split at hok
  · cases hok
  rename_i hne
  obtain ⟨sig, hsig, hok⟩ := bind_eq_ok.mp hok
  obtain ⟨key, hkey, hverify⟩ := verifySig_ok E hok
  cases hb : h.p.sigB64 with
  | none =>
    rw [hb] at hne
    exact absurd rfl hne
  | some b64 =>
    rw [hb] at hsig
    exact ⟨b64, sig, key, cpk, hb, mapError_eq_ok.mp hsig, hkey, hcpk, hverify⟩

theorem addSigParam_spec {res : Except (HandshakeErr ε) Unit} (hadd : addSigParam E h = (c, res)) :
    ∃ hb, c = { h with hb } := by
  unfold addSigParam at hadd
  split at hadd
  all_goals
    cases hadd
    exact ⟨_, rfl⟩

/-- The run of a client that answers a challenge and adds its own. -/
theorem runSignChallenge_spec (hstate : h.state = .signChallenge) :
    ∃ hb challenge state, (runSignChallenge E h cpk (.ok r)).1 =
        { h with hb, challengeServer := challenge, state } ∧
      (state = .signChallenge ∧ (challenge = h.challengeServer ∨ challenge = E.encodeB64 r) ∨
        state = .verifyChallenge ∧ challenge = E.encodeB64 r) := by
  unfold runSignChallenge
  split
  · exact ⟨h.hb, h.challengeServer, .signChallenge, by rw [← hstate], .inl ⟨rfl, .inl rfl⟩⟩
  simp only [addChallengeServerParam]
  split
  · rename_i c err hsig
    obtain ⟨hb, rfl⟩ := addSigParam_spec hsig
    exact ⟨hb, _, .signChallenge, by rw [← hstate], .inl ⟨rfl, .inr rfl⟩⟩
  · rename_i c hsig
    obtain ⟨hb, rfl⟩ := addSigParam_spec hsig
    exact ⟨_, _, .verifyChallenge, rfl, .inr ⟨rfl, rfl⟩⟩

theorem Ran.of_sign {h₀ : Client Priv Pub} (hstate : h₀.state = .signChallenge)
    (hframe : h₀ = { h with hb := {}, state := .signChallenge }) (hnot : ¬ h.Proved) :
    Ran E h (runSignChallenge E h₀ cpk (.ok r)).1 r := by
  obtain ⟨hb, challenge, state, hrun, hcases⟩ := runSignChallenge_spec hstate
  rw [hrun, hframe]
  rw [hframe] at hcases
  refine ⟨rfl, rfl, rfl, ⟨rfl, rfl⟩, ?_, ?_, ?_, fun hp => absurd hp hnot⟩
  · rcases hcases with ⟨-, hc⟩ | ⟨-, hc⟩
    · exact hc
    · exact .inr hc
  · rcases hcases with ⟨hs, -⟩ | ⟨-, hc⟩
    · exact fun hne => absurd hs hne
    · exact fun _ _ => .inl hc
  · rintro (hp | hp) <;> rcases hcases with ⟨hs, -⟩ | ⟨hs, -⟩ <;> simp_all

/-- A run that changes no more than the header it builds. -/
theorem Ran.stays (hb : HeaderBuilder) : Ran E h { h with hb } r :=
  ⟨rfl, rfl, rfl, ⟨rfl, rfl⟩, .inl rfl, fun h1 h2 => .inr ⟨rfl, h1, h2⟩,
    fun hp => ⟨rfl, .inl hp⟩, id⟩

/-- A run that ends with the server proved, by now or before. -/
theorem Ran.proves (hb : HeaderBuilder) {state : ClientState}
    (hstate : state = .done ∨ state = .waitingForBearer) (hfirst : h.state ≠ .signChallenge)
    (hfirst' : h.state ≠ .initiateChallenge) (hver : h.Proved ∨ Verified E h) :
    Ran E h { h with hb, state } r :=
  ⟨rfl, rfl, rfl, ⟨rfl, rfl⟩, .inl rfl, fun _ _ => .inr ⟨rfl, hfirst, hfirst'⟩,
    fun _ => ⟨rfl, hver⟩, fun _ => hstate⟩

theorem run_spec (h : Client Priv Pub) (r : Bytes) : Ran E h (h.run E (.ok r)).1 r := by
  unfold run
  split
  · exact .stays h.hb
  rename_i hdone
  dsimp only
  split
  · -- The client's own key cannot be written: nothing happens.
    exact .stays {}
  · rename_i cpk hcpk
    split
    · rename_i hs
      have hnot : ¬ h.Proved := by simp [Proved, hs]
      refine ⟨rfl, rfl, rfl, ⟨rfl, rfl⟩, .inr rfl, fun _ _ => .inl rfl, ?_, fun hp => absurd hp hnot⟩
      rintro (hp | hp) <;> cases hp
    · rename_i hs
      split
      · exact .of_sign rfl rfl (by simp [Proved, hs])
      split
      · exact .stays {}
      rename_i hverify
      have hver : Verified E h := verifySig_verified hcpk hverify
      obtain ⟨hb, hadd⟩ := addSigParam_spec (Prod.mk.eta).symm
      rw [hadd]
      exact .proves hb (.inr rfl) (by simp [hs]) (by simp [hs]) (.inr hver)
    · rename_i hs
      exact .proves _ (.inl rfl) (by simp [hs]) (by simp [hs]) (.inl (.inr hs))
    · rename_i hs
      exact .of_sign hs (by rw [← hs]) (by simp [Proved, hs])
    · rename_i hs
      split
      · exact .stays {}
      · rename_i hverify
        have hver : Verified E h := verifySig_verified hcpk hverify
        exact .proves _ (.inl rfl) (by simp [hs]) (by simp [hs]) (.inr hver)
    · rename_i hs
      exact absurd hs hdone

/-- Once the server has proved itself, the next run ends the handshake. -/
theorem run_done {random : Except ε Bytes} (hp : h.Proved)
    (hok : (h.run E random).2 = .ok ()) : (h.run E random).1.state = .done := by
  unfold run at hok ⊢
  split
  · assumption
  · rename_i hdone
    rw [if_neg hdone] at hok
    have hs : h.state = .waitingForBearer := hp.resolve_left hdone
    dsimp only at hok ⊢
    split
    · rename_i hcpk
      rw [hcpk] at hok
      cases hok
    · rw [hs]
      rfl

end Client

end Dep2p.HttpAuth
