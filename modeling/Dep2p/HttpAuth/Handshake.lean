import Dep2p.Lib.Ideal
import Dep2p.Multiformats.Varint
import Mathlib.Data.List.Sort

/- What both sides of the HTTP peer ID handshake share (`handshake.go`): the parameters in a
   header, the header that is built, and what is signed.

   A header carries parameters `name="value"` behind the name of the scheme. What a side
   signs are named parts, in the order of their names.

   Keys, signatures, peer IDs and base64 are parameters (`Externals`). The buffers a value is
   encoded into are left out where their size does not matter.

   Correspondence (Go ↔ Lean):
     `params`, `parsePeerIDAuthSchemeParams`         ↔ `Params`, `parsePeerIDAuthSchemeParams`
     `splitAuthHeaderParams`, the loop over it       ↔ `splitAuthHeaderParams`, `parseParams`
     `headerBuilder` and its methods                 ↔ `HeaderBuilder`
     `genDataToSign`, `sign`, `verifySig`            ↔ the same names -/
namespace Dep2p.HttpAuth

open Lib Varint List

abbrev Bytes := List UInt8

/-- The bytes of a literal of the source. -/
def bytes (s : String) : Bytes := s.toUTF8.toList

def peerIDAuthScheme : Bytes := bytes "dep2p-PeerID"

def challengeLen : Nat := 32

def maxHeaderSize : Nat := 2048

inductive HandshakeErr (ε : Type) where
  | errTooBig | errInvalid | errNotRan
  | errInvalidHeader | errMissingChallenge
  | errExpiredChallenge | errExpiredToken | errInvalidHMAC
  | gotToken | gotChallenge
  | hostnameMismatch
  | noPublicKey
  | challengeTooShort
  | noSignature
  | signatureMismatch
  | wrongState
  | noPeerID
  /-- An error of base64, of JSON, of a key or of the source of randomness. -/
  | foreign (err : ε)
  deriving DecidableEq, Repr

structure Externals (Priv Pub ε : Type) where
  signing : Signing Priv Pub Bytes Bytes ε
  marshalPublicKey : Pub → Except ε Bytes
  unmarshalPublicKey : Bytes → Except ε Pub
  idFromPublicKey : Pub → Except ε Bytes
  encodeB64 : Bytes → Bytes
  decodeB64 : Bytes → Except ε Bytes

variable {ε α Priv Pub : Type}

def foreign (x : Except ε α) : Except (HandshakeErr ε) α := x.mapError .foreign

/-! ## The parameters of a header -/

/-- A parameter that is not there is nil, one without a value is empty. -/
structure Params where
  bearerTokenB64 : Option Bytes := none
  challengeClient : Option Bytes := none
  challengeServer : Option Bytes := none
  opaqueB64 : Option Bytes := none
  publicKeyB64 : Option Bytes := none
  sigB64 : Option Bytes := none
  deriving DecidableEq, Repr

/-- What follows the first occurrence of `sub`. -/
def afterFirst (sub : Bytes) : Bytes → Option Bytes
  | [] => if sub.isEmpty then some [] else none
  | b :: bs =>
    if sub.isPrefixOf (b :: bs) then some ((b :: bs).drop sub.length) else afterFirst sub bs

def isSeparator (b : UInt8) : Bool := b = 0x20 || b = 0x2C

/-- The next token and what follows it, or `none` for `bufio.ErrFinalToken`. Separators with
nothing behind them give an empty token. -/
def splitAuthHeaderParams (data : Bytes) : Option (Bytes × Bytes) :=
  if data.isEmpty then none
  else
    match data.dropWhile isSeparator with
    | [] => some ([], [])
    | b :: bs =>
      let token := b :: bs.takeWhile (!isSeparator ·)
      if token.contains 0x3D then some (token, bs.dropWhile (!isSeparator ·)) else none

theorem splitAuthHeaderParams_lt {data token rest : Bytes}
    (h : splitAuthHeaderParams data = some (token, rest)) : rest.length < data.length := by
  unfold splitAuthHeaderParams at h
  split at h
  · cases h
  rename_i hne
  have hlen := (dropWhile_sublist (l := data) isSeparator).length_le
  split at h
  · cases h
    exact length_pos_iff.mpr fun hnil => hne (isEmpty_iff.mpr hnil)
  · rename_i b bs hdrop
    dsimp only at h
    split at h
    · cases h
      have hrest := (dropWhile_sublist (l := bs) (!isSeparator ·)).length_le
      rw [hdrop, length_cons] at hlen
      omega
    · cases h

/-- Set the parameter that a token stands for; names that are not known are skipped. -/
def setParam (p : Params) (token : Bytes) : Option Params :=
  let k := token.takeWhile (· ≠ 0x3D)
  match token.dropWhile (· ≠ 0x3D) with
  | [] => none
  | _ :: v =>
    if v.length < 2 ∨ v.head? ≠ some 0x22 ∨ v.getLast? ≠ some 0x22 then none
    else
      let v := v.tail.dropLast
      if k = bytes "bearer" then some { p with bearerTokenB64 := some v }
      else if k = bytes "challenge-client" then some { p with challengeClient := some v }
      else if k = bytes "challenge-server" then some { p with challengeServer := some v }
      else if k = bytes "opaque" then some { p with opaqueB64 := some v }
      else if k = bytes "public-key" then some { p with publicKeyB64 := some v }
      else if k = bytes "sig" then some { p with sigB64 := some v }
      else some p

/-- The loop of `parsePeerIDAuthSchemeParams`. Parameters before an error stay set. -/
def parseParams (p : Params) (headerVal : Bytes) : Params × Except (HandshakeErr ε) Unit :=
  match h : splitAuthHeaderParams headerVal with
  | none => (p, .ok ())
  | some (token, rest) =>
    have : rest.length < headerVal.length := splitAuthHeaderParams_lt h
    match setParam p token with
    | none => (p, .error .errInvalid)
    | some p => parseParams p rest
termination_by headerVal.length

def parsePeerIDAuthSchemeParams (p : Params) (headerVal : Bytes) :
    Params × Except (HandshakeErr ε) Unit :=
  if headerVal.length > maxHeaderSize then (p, .error .errTooBig)
  else
    match afterFirst peerIDAuthScheme headerVal with
    | none => (p, .ok ())
    | some headerVal => parseParams p headerVal

/-! ## The header that is built -/

structure HeaderBuilder where
  b : Bytes := []
  pastFirstField : Bool := false
  deriving DecidableEq, Repr

namespace HeaderBuilder

def writeScheme (h : HeaderBuilder) (scheme : Bytes) : HeaderBuilder :=
  { h with b := h.b ++ scheme ++ [0x20] }

def maybeAddComma (h : HeaderBuilder) : HeaderBuilder :=
  if h.pastFirstField then { h with b := h.b ++ bytes ", " } else { h with pastFirstField := true }

/-- A parameter without a value is not written. -/
def writeParam (h : HeaderBuilder) (key val : Bytes) : HeaderBuilder :=
  if val.isEmpty then h
  else
    let h := h.maybeAddComma
    { h with b := h.b ++ key ++ bytes "=\"" ++ val ++ [0x22] }

end HeaderBuilder

variable (E : Externals Priv Pub ε) {scheme k c H c' H' : Bytes}

def HeaderBuilder.writeParamB64 (h : HeaderBuilder) (key val : Bytes) : HeaderBuilder :=
  h.writeParam key (E.encodeB64 val)

/-! ## What is signed -/

structure SigParam where
  k : Bytes
  v : Bytes
  deriving DecidableEq, Repr

/-- A part is its name, an equals sign and its value, behind the length of all three. -/
def SigParam.part (p : SigParam) : Bytes := p.k ++ 0x3D :: p.v

/-- The parts in the order of their names, behind the name of the scheme. -/
def genDataToSign (scheme : Bytes) (parts : List SigParam) : Bytes :=
  scheme ++ lengthPrefixed ((parts.insertionSort fun a b => a.k ≤ b.k).map SigParam.part)

def verifySig (publicKey : Option Pub) (scheme : Bytes) (signedParts : List SigParam)
    (sig : Bytes) : Except (HandshakeErr ε) Unit :=
  match publicKey with
  | none => .error .noPublicKey
  | some publicKey => do
    let ok ← foreign (E.signing.verify publicKey (genDataToSign scheme signedParts) sig)
    if ok then .ok () else .error .signatureMismatch

def sign (privKey : Priv) (scheme : Bytes) (partsToSign : List SigParam) :
    Except (HandshakeErr ε) Bytes :=
  foreign (E.signing.sign privKey (genDataToSign scheme partsToSign))

/-- The parts a client signs. -/
def clientParts (challengeClient serverPublicKey hostname : Bytes) : List SigParam :=
  [⟨bytes "challenge-client", challengeClient⟩, ⟨bytes "server-public-key", serverPublicKey⟩,
    ⟨bytes "hostname", hostname⟩]

/-- The parts a server signs. -/
def serverParts (challengeServer clientPublicKey hostname : Bytes) : List SigParam :=
  [⟨bytes "challenge-server", challengeServer⟩, ⟨bytes "client-public-key", clientPublicKey⟩,
    ⟨bytes "hostname", hostname⟩]

/-- What a client signs to prove that it owns its key. -/
def clientProof (challengeClient serverPublicKey hostname : Bytes) : Bytes :=
  genDataToSign peerIDAuthScheme (clientParts challengeClient serverPublicKey hostname)

/-- What a server signs to prove that it owns its key. -/
def serverProof (challengeServer clientPublicKey hostname : Bytes) : Bytes :=
  genDataToSign peerIDAuthScheme (serverParts challengeServer clientPublicKey hostname)

theorem verifySig_ok {publicKey : Option Pub} {sig : Bytes} {parts : List SigParam}
    (h : verifySig E publicKey scheme parts sig = .ok ()) :
    ∃ key, publicKey = some key ∧
      E.signing.verify key (genDataToSign scheme parts) sig = .ok true := by
  unfold verifySig at h
  split at h
  · cases h
  rename_i key
  obtain ⟨ok, hverify, hok⟩ := bind_eq_ok.mp h
  cases ok with
  | false => cases hok
  | true => exact ⟨key, rfl, mapError_eq_ok.mp hverify⟩

/-- The parts can be read off what is signed, in the order of their names. -/
theorem genDataToSign_inj {ps qs : List SigParam}
    (h : genDataToSign scheme ps = genDataToSign scheme qs) :
    (ps.insertionSort fun a b => a.k ≤ b.k).map SigParam.part =
      (qs.insertionSort fun a b => a.k ≤ b.k).map SigParam.part :=
  lengthPrefixed_injective (append_cancel_left h)

theorem SigParam.part_inj {v v' : Bytes} (h : (mk k v).part = (mk k v').part) :
    v = v' :=
  cons.inj (append_cancel_left h) |>.2

theorem clientParts_sorted (s : Bytes) :
    (clientParts c s H).insertionSort (fun a b => a.k ≤ b.k) =
      [⟨bytes "challenge-client", c⟩, ⟨bytes "hostname", H⟩, ⟨bytes "server-public-key", s⟩] := by
  have h1 : bytes "challenge-client" ≤ bytes "hostname" := by decide +kernel
  have h2 : ¬ bytes "server-public-key" ≤ bytes "hostname" := by decide +kernel
  simp [clientParts, insertionSort, orderedInsert, h1, h2]

theorem serverParts_sorted :
    (serverParts c k H).insertionSort (fun a b => a.k ≤ b.k) = serverParts c k H := by
  have h1 : bytes "challenge-server" ≤ bytes "client-public-key" := by decide +kernel
  have h2 : bytes "client-public-key" ≤ bytes "hostname" := by decide +kernel
  simp only [serverParts, insertionSort, foldr_cons, foldr_nil, orderedInsert,
    h1, h2, if_true]

/-- The proof of a client says which challenge it answers, to which server and host. -/
theorem clientProof_inj {s s' : Bytes} (h : clientProof c s H = clientProof c' s' H') :
    c = c' ∧ s = s' ∧ H = H' := by
  have hparts := genDataToSign_inj h
  rw [clientParts_sorted, clientParts_sorted] at hparts
  simp only [map_cons, cons.injEq, and_true] at hparts
  obtain ⟨hc, hH, hs⟩ := hparts
  exact ⟨SigParam.part_inj hc, SigParam.part_inj hs, SigParam.part_inj hH⟩

/-- The proof of a server says which challenge it answers, to which client and for which
host. -/
theorem serverProof_inj {k' : Bytes} (h : serverProof c k H = serverProof c' k' H') :
    c = c' ∧ k = k' ∧ H = H' := by
  have hparts := genDataToSign_inj h
  rw [serverParts_sorted, serverParts_sorted] at hparts
  simp only [serverParts, map_cons, cons.injEq, and_true] at hparts
  obtain ⟨hc, hk, hH⟩ := hparts
  exact ⟨SigParam.part_inj hc, SigParam.part_inj hk, SigParam.part_inj hH⟩

end Dep2p.HttpAuth
