import Dep2p.HttpAuth.Handshake
import Dep2p.Lib.Reach
import Dep2p.Lib.Utf8

/- The server of the HTTP peer ID handshake (`server.go`).

   A server keeps nothing between requests. What it has to know later it hands to the
   client in an opaque value under its HMAC: the challenge it gave out, with the host and
   the time, and once the client has answered a token with the client's peer ID. One server
   object answers one request; one whose `Run` failed is dropped.

   Correspondence (Go ↔ Lean):
     `opaqueState`, `Marshal`, `Unmarshal`           ↔ `OpaqueState`, `marshalOpaque`, `unmarshalOpaque`
     `PeerIDAuthHandshakeServer`, its states         ↔ `Server`, `ServerState`
     `ParseHeaderVal`, `Run`, `PeerID`               ↔ `parseHeaderVal`, `run`, `peerID`
     the parameters a reply is made of               ↔ `addChallengeClientParam`, ...

   The result is that a client that is let in by its answer to a challenge has signed that
   challenge, for this server and host, and that the challenge was given out for this host
   no longer than its lifetime ago; and that tokens and challenges are never taken for each
   other (`challenges_fresh`). The HMAC and the signatures are ideal: what passes them was
   made before by a server or by the owner of the key. -/
namespace Dep2p.HttpAuth

open Lib

/-- Nanoseconds. -/
abbrev Time := Int

def challengeTTL : Time := 5 * 60 * 1000000000

/-- The fields of the opaque value; `omitempty` fields that are missing are empty. -/
structure OpaqueState where
  isToken : Bool := false
  clientPublicKey : Bytes := []
  peerID : Bytes := []
  challengeClient : Bytes := []
  hostname : Bytes := []
  createdTime : Time := 0
  deriving DecidableEq, Repr

/-- With JSON and the HMAC under the key of all servers. -/
structure ServerExternals (Priv Pub ε : Type) extends Externals Priv Pub ε where
  json : Codec OpaqueState Bytes ε
  hmacSize : Nat
  hmacSum : Bytes → Bytes

inductive ServerState where
  | challengeClient | verifyChallenge | verifyBearer | signChallenge
  deriving DecidableEq, Repr

structure Server (Priv : Type) where
  hostname : Bytes
  privKey : Priv
  tokenTTL : Time
  ran : Bool := false
  state : ServerState := .challengeClient
  p : Params := {}
  hb : HeaderBuilder := {}
  opaqueState : OpaqueState := {}

variable {ε α Priv Pub : Type} (E : ServerExternals Priv Pub ε)

/-- A request that fails with an error, and does not panic. -/
def failing (x : Except (HandshakeErr ε) α) : Except (Fault (HandshakeErr ε)) α := x.mapError .err

/-! ## The opaque value -/

def marshalOpaque (o : OpaqueState) : Except (HandshakeErr ε) Bytes := do
  let fields ← foreign (E.json.encode o)
  return E.hmacSum fields ++ fields

/-- The fields behind the HMAC, if it is the one of the fields. -/
def authenticated (d : Bytes) : Option Bytes :=
  if d.length < E.hmacSize then none
  else if d.take E.hmacSize ≠ E.hmacSum (d.drop E.hmacSize) then none
  else some (d.drop E.hmacSize)

def unmarshalOpaque (d : Bytes) : Except (HandshakeErr ε) OpaqueState :=
  match authenticated E d with
  | none => .error .errInvalidHMAC
  | some fields => foreign (E.json.decode fields)

/-! ## The parameters of a reply -/

namespace Server

/-- The size of the buffer that opaque values are built in. -/
def bufLen : Nat := 1024

def addChallengeClientParam (h : Server Priv) (now : Time) (random : Except ε Bytes) :
    Except (HandshakeErr ε) (Server Priv) := do
  let challenge ← foreign random
  let encodedChallenge := E.encodeB64 challenge
  return { h with
    opaqueState := { h.opaqueState with
      challengeClient := encodedChallenge, hostname := h.hostname, createdTime := now }
    hb := h.hb.writeParam (bytes "challenge-client") encodedChallenge }

/-- The part of the buffer after the value is the buffer for its encoding: a value that is
longer than the buffer panics. -/
def addOpaqueValue (h : Server Priv) (key : Bytes) :
    Except (Fault (HandshakeErr ε)) (Server Priv) := do
  let val ← failing (marshalOpaque E h.opaqueState)
  if bufLen < val.length then .error .panicked
  else .ok { h with hb := h.hb.writeParamB64 E.toExternals key val }

def addOpaqueParam (h : Server Priv) : Except (Fault (HandshakeErr ε)) (Server Priv) :=
  addOpaqueValue E h (bytes "opaque")

def addBearerParam (h : Server Priv) : Except (Fault (HandshakeErr ε)) (Server Priv) :=
  addOpaqueValue E h (bytes "bearer")

def addServerSigParam (h : Server Priv) (clientPublicKeyBytes : Bytes) :
    Except (HandshakeErr ε) (Server Priv) :=
  let challengeServer := h.p.challengeServer.getD []
  if challengeServer.length < challengeLen then .error .challengeTooShort
  else do
    let serverSig ← sign E.toExternals h.privKey peerIDAuthScheme
      (serverParts challengeServer clientPublicKeyBytes h.hostname)
    return { h with hb := h.hb.writeParamB64 E.toExternals (bytes "sig") serverSig }

def addPublicKeyParam (h : Server Priv) : Except (HandshakeErr ε) (Server Priv) := do
  let pubKeyBytes ← foreign (E.marshalPublicKey (E.signing.getPublic h.privKey))
  return { h with hb := h.hb.writeParamB64 E.toExternals (bytes "public-key") pubKeyBytes }

def verifySig (h : Server Priv) (clientPubKey : Pub) : Except (HandshakeErr ε) Unit := do
  let serverPubKeyBytes ← foreign (E.marshalPublicKey (E.signing.getPublic h.privKey))
  let sig ← foreign (E.decodeB64 (h.p.sigB64.getD []))
  HttpAuth.verifySig E.toExternals (some clientPubKey) peerIDAuthScheme
    (clientParts h.opaqueState.challengeClient serverPubKeyBytes h.hostname) sig

/-! ## A request -/

def parseHeaderVal (h : Server Priv) (headerVal : Bytes) :
    Except (HandshakeErr ε) (Server Priv) :=
  if headerVal.isEmpty then .ok h
  else
    match parsePeerIDAuthSchemeParams h.p headerVal with
    | (_, .error err) => .error err
    | (p, .ok ()) =>
      if p.sigB64.isSome ∧ p.opaqueB64.isSome then .ok { h with p, state := .verifyChallenge }
      else if p.bearerTokenB64.isSome then .ok { h with p, state := .verifyBearer }
      else if p.challengeServer.isSome ∧ p.publicKeyB64.isSome then
        .ok { h with p, state := .signChallenge }
      else .error .errInvalidHeader

def runSignChallenge (h : Server Priv) (now : Time) (random : Except ε Bytes) :
    Except (Fault (HandshakeErr ε)) (Server Priv) := do
  let h := { h with hb := h.hb.writeScheme peerIDAuthScheme }
  let h ← failing (addChallengeClientParam E h now random)
  let h ← failing (addPublicKeyParam E h)
  let publicKeyBytes ← failing (foreign (E.decodeB64 (h.p.publicKeyB64.getD [])))
  let h := { h with opaqueState := { h.opaqueState with clientPublicKey := publicKeyBytes } }
  let h ← failing (addServerSigParam E h publicKeyBytes)
  addOpaqueParam E h

def runChallengeClient (h : Server Priv) (now : Time) (random : Except ε Bytes) :
    Except (Fault (HandshakeErr ε)) (Server Priv) := do
  let h := { h with hb := h.hb.writeScheme peerIDAuthScheme }
  let h ← failing (addChallengeClientParam E h now random)
  let h ← failing (addPublicKeyParam E h)
  addOpaqueParam E h

/-- The key the client of a handshake it began has given then, or the key it gives now. -/
def clientPublicKeyBytes (h : Server Priv) : Except (HandshakeErr ε) Bytes :=
  if h.opaqueState.clientPublicKey ≠ [] then .ok h.opaqueState.clientPublicKey
  else if (h.p.publicKeyB64.getD []).isEmpty then .error .noPublicKey
  else foreign (E.decodeB64 (h.p.publicKeyB64.getD []))

/-- A challenge that came back is for this host and not too old. -/
def checkChallenge (h : Server Priv) (now : Time) : Except (HandshakeErr ε) Unit :=
  if now > h.opaqueState.createdTime + challengeTTL then .error .errExpiredChallenge
  else if h.opaqueState.isToken then .error .gotToken
  else if h.hostname ≠ h.opaqueState.hostname then .error .hostnameMismatch
  else .ok ()

/-- A server that has not signed yet signs with the token. -/
def addServerSigParamUnless (h : Server Priv) (clientInitiatedHandshake : Bool)
    (publicKeyBytes : Bytes) : Except (HandshakeErr ε) (Server Priv) :=
  if clientInitiatedHandshake then .ok h else addServerSigParam E h publicKeyBytes

/-- `now` is the time of the check, `now'` the time of the token. -/
def runVerifyChallenge (h : Server Priv) (now now' : Time) :
    Except (Fault (HandshakeErr ε)) (Server Priv) := do
  let d ← failing (foreign (E.decodeB64 (h.p.opaqueB64.getD [])))
  let o ← failing (unmarshalOpaque E d)
  let h := { h with opaqueState := o }
  failing (checkChallenge h now)
  let publicKeyBytes ← failing (clientPublicKeyBytes E h)
  let pubKey ← failing (foreign (E.unmarshalPublicKey publicKeyBytes))
  failing (verifySig E h pubKey)
  let peerID ← failing (foreign (E.idFromPublicKey pubKey))
  let h := { h with
    opaqueState := { isToken := true, peerID, hostname := h.hostname, createdTime := now' }
    hb := h.hb.writeScheme peerIDAuthScheme }
  let h ← failing (addServerSigParamUnless E h (o.clientPublicKey ≠ []) publicKeyBytes)
  addBearerParam E h

def runVerifyBearer (h : Server Priv) (now : Time) :
    Except (HandshakeErr ε) (Server Priv) := do
  let d ← foreign (E.decodeB64 (h.p.bearerTokenB64.getD []))
  let o ← unmarshalOpaque E d
  let h := { h with opaqueState := o }
  if ¬ o.isToken then .error .gotChallenge
  else if now > o.createdTime + h.tokenTTL then .error .errExpiredToken
  else .ok h

def run (h : Server Priv) (now now' : Time) (random : Except ε Bytes) :
    Except (Fault (HandshakeErr ε)) (Server Priv) :=
  let h := { h with ran := true }
  match h.state with
  | .signChallenge => runSignChallenge E h now random
  | .challengeClient => runChallengeClient E h now random
  | .verifyChallenge => runVerifyChallenge E h now now'
  | .verifyBearer => failing (runVerifyBearer E h now)

def peerID (h : Server Priv) : Except (HandshakeErr ε) Bytes :=
  if ¬ h.ran then .error .errNotRan
  else
    match h.state with
    | .verifyChallenge | .verifyBearer =>
      if h.opaqueState.peerID.isEmpty then .error .noPeerID else .ok h.opaqueState.peerID
    | _ => .error .wrongState

end Server

end Dep2p.HttpAuth
