import Dep2p.Lib.Ideal
import Dep2p.Multiformats.Varint

/- Signed envelopes (`core/record/envelope.go`, `record.go`).

   An envelope is a payload with a type and the signature of a key on both, in a domain. A
   type of records registers for a payload type; `ConsumeEnvelope` checks the signature in
   the caller's domain and has the registered type read the payload.

   Keys, signatures and the protobuf message are parameters. The record an envelope keeps
   once it is read, and `ConsumeTypedEnvelope`, which reads into a record of the caller's,
   are left out.

   Correspondence (Go ↔ Lean):
     `Record`, `RegisterType`                        ↔ `Interface`, `registerType`
     `unmarshalRecordPayload`                        ↔ `unmarshalRecordPayload`
     `Envelope`, `pb.Envelope`                       ↔ `Envelope`, `PbEnvelope`
     `makeUnsigned`, `Seal`, `Marshal`               ↔ `makeUnsigned`, `sealRecord`, `marshal`
     `UnmarshalEnvelope`, `validate`                 ↔ `unmarshalEnvelope`, `validate`
     `ConsumeEnvelope`                               ↔ `consumeEnvelope` -/
namespace Dep2p.Record

open Lib Varint

abbrev Bytes := List UInt8

inductive EnvelopeErr (ε : Type) where
  | errEmptyDomain
  | errEmptyPayloadType
  | errInvalidSignature
  | errPayloadTypeNotRegistered
  /-- An error of a key, of protobuf or of a record. -/
  | foreign (err : ε)
  | panicIn (place : String)
  deriving DecidableEq, Repr

variable {ε α : Type}

def foreign (x : Except ε α) : Except (EnvelopeErr ε) α := x.mapError .foreign

@[simp] theorem foreign_ok (a : α) : foreign (.ok a : Except ε α) = .ok a := rfl

/-- `catch.HandlePanic`, deferred -/
def handlePanic (place : String) : Except (Fault (EnvelopeErr ε)) α → Except (EnvelopeErr ε) α
  | .ok a => .ok a
  | .error (.err err) => .error err
  | .error .panicked => .error (.panicIn place)

@[simp] theorem handlePanic_ok (place : String) (a : α) :
    handlePanic place (.ok a : Except (Fault (EnvelopeErr ε)) α) = .ok a := rfl

/-! ## Records -/

/-- What records can do: `ρ` are records of all types, `τ` the types. -/
structure Interface (ρ τ ε : Type) where
  valueType : ρ → τ
  domain : ρ → Bytes
  codec : ρ → Bytes
  marshalRecord : ρ → Except (EnvelopeErr ε) Bytes
  /-- Read a payload into a blank record of a type. -/
  unmarshalRecord : τ → Bytes → Except (Fault (EnvelopeErr ε)) ρ

variable {ρ τ : Type} (I : Interface ρ τ ε)

/-- `payloadTypeRegistry` -/
abbrev Registry (τ : Type) := Bytes → Option τ

/-- Which type reads the payloads of a payload type; the last one to register. -/
def registerType (registry : Registry τ) (prototype : ρ) : Registry τ :=
  Function.update registry (I.codec prototype) (some (I.valueType prototype))

def blankRecordForPayloadType (registry : Registry τ) (payloadType : Bytes) :
    Except (EnvelopeErr ε) τ :=
  match registry payloadType with
  | none => .error .errPayloadTypeNotRegistered
  | some valueType => .ok valueType

def unmarshalRecordPayload (registry : Registry τ) (payloadType payloadBytes : Bytes) :
    Except (EnvelopeErr ε) ρ := do
  let valueType ← blankRecordForPayloadType registry payloadType
  handlePanic "dep2p envelope record unmarshal" (I.unmarshalRecord valueType payloadBytes)

variable {registry : Registry τ}

/-- A type keeps its registration as long as no other one registers for its payload type. -/
theorem foldl_registerType (protos : List ρ) {codec : Bytes} {t : τ}
    (hreg : registry codec = some t) (h : ∀ p ∈ protos, I.codec p = codec → I.valueType p = t) :
    protos.foldl (registerType I) registry codec = some t := by
  induction protos generalizing registry with
  | nil => exact hreg
  | cons p protos ih =>
    refine ih ?_ fun q hq => h q (List.mem_cons_of_mem p hq)
    by_cases hp : I.codec p = codec
    · rw [registerType, hp, Function.update_self, h p List.mem_cons_self hp]
    · rw [registerType, Function.update_of_ne (symm hp), hreg]

/-! ## Envelopes -/

structure Envelope (Pub : Type) where
  publicKey : Pub
  payloadType : Bytes
  rawPayload : Bytes
  signature : Bytes

/-- `pb.Envelope`, with `κ` for `pb.PublicKey` -/
structure PbEnvelope (κ : Type) where
  publicKey : κ
  payloadType : Bytes
  payload : Bytes
  signature : Bytes

/-- Keys with their signatures, `PublicKeyToProto` with `PublicKeyFromProto`, and
`proto.Marshal` with `proto.Unmarshal` of envelopes. -/
structure Primitives (Priv Pub κ ε : Type) where
  signing : Signing Priv Pub Bytes Bytes ε
  publicKeys : Codec Pub κ ε
  envelopes : Codec (PbEnvelope κ) Bytes ε

variable {Priv Pub κ : Type} (P : Primitives Priv Pub κ ε)

/-- The bytes that are signed. -/
def makeUnsigned (domain payloadType payload : Bytes) : Bytes :=
  lengthPrefixed [domain, payloadType, payload]

def sealRecord (rec : ρ) (privateKey : Priv) : Except (EnvelopeErr ε) (Envelope Pub) := do
  let payload ← I.marshalRecord rec
  let domain := I.domain rec
  let payloadType := I.codec rec
  if domain = [] then .error .errEmptyDomain
  else if payloadType = [] then .error .errEmptyPayloadType
  else do
    let sig ← foreign (P.signing.sign privateKey (makeUnsigned domain payloadType payload))
    return { publicKey := P.signing.getPublic privateKey, payloadType,
             rawPayload := payload, signature := sig }

def unmarshalEnvelope (data : Bytes) : Except (EnvelopeErr ε) (Envelope Pub) := do
  let e ← foreign (P.envelopes.decode data)
  let key ← foreign (P.publicKeys.decode e.publicKey)
  return { publicKey := key, payloadType := e.payloadType, rawPayload := e.payload,
           signature := e.signature }

def marshal (e : Envelope Pub) : Except (EnvelopeErr ε) Bytes := do
  let key ← foreign (P.publicKeys.encode e.publicKey)
  foreign (P.envelopes.encode
    { publicKey := key, payloadType := e.payloadType, payload := e.rawPayload,
      signature := e.signature })

def validate (e : Envelope Pub) (domain : Bytes) : Except (EnvelopeErr ε) Unit := do
  let valid ← foreign (P.signing.verify e.publicKey
    (makeUnsigned domain e.payloadType e.rawPayload) e.signature)
  if valid then .ok () else .error .errInvalidSignature

def consumeEnvelope (registry : Registry τ) (data domain : Bytes) :
    Except (EnvelopeErr ε) (Envelope Pub × ρ) := do
  let e ← unmarshalEnvelope P data
  validate P e domain
  let rec ← unmarshalRecordPayload I registry e.payloadType e.rawPayload
  return (e, rec)

/-! ## What a signature says -/

/-- Nothing is lost in the bytes that are signed. -/
theorem makeUnsigned_inj {d t p d' t' p' : Bytes}
    (h : makeUnsigned d t p = makeUnsigned d' t' p') : d = d' ∧ t = t' ∧ p = p' := by
  have hfields := lengthPrefixed_injective h
  simp only [List.cons.injEq, and_true] at hfields
  exact hfields

variable {I P} {e : Envelope Pub} {domain : Bytes}

theorem validate_eq_ok :
    validate P e domain = .ok () ↔
      P.signing.verify e.publicKey (makeUnsigned domain e.payloadType e.rawPayload) e.signature =
        .ok true := by
  unfold validate
  rw [bind_eq_ok]
  constructor
  · rintro ⟨valid, hverify, hvalid⟩
    cases valid with
    | false => cases hvalid
    | true => exact mapError_eq_ok.mp hverify
  · intro h
    exact ⟨true, mapError_eq_ok.mpr h, rfl⟩

variable {data : Bytes} {r : ρ}

/-- What is consumed: an envelope that is in the data, valid in the domain and of a type
that is registered. -/
theorem consumeEnvelope_eq_ok :
    consumeEnvelope I P registry data domain = .ok (e, r) ↔
      unmarshalEnvelope P data = .ok e ∧ validate P e domain = .ok () ∧
        unmarshalRecordPayload I registry e.payloadType e.rawPayload = .ok r := by
  unfold consumeEnvelope
  rw [bind_eq_ok]
  constructor
  · rintro ⟨e', he, h⟩
    obtain ⟨⟨⟩, hvalid, h⟩ := bind_eq_ok.mp h
    obtain ⟨r', hr, h⟩ := bind_eq_ok.mp h
    cases h
    exact ⟨he, hvalid, hr⟩
  · rintro ⟨he, hvalid, hr⟩
    refine ⟨e, he, ?_⟩
    rw [hvalid, hr]
    rfl

theorem consumeEnvelope_verified (h : consumeEnvelope I P registry data domain = .ok (e, r)) :
    P.signing.verify e.publicKey (makeUnsigned domain e.payloadType e.rawPayload) e.signature =
      .ok true :=
  validate_eq_ok.mp (consumeEnvelope_eq_ok.mp h).2.1

variable {signed : Pub → Bytes → Prop}

/-- A key and a signature of it belong to one domain, one payload type and one payload. -/
theorem consumeEnvelope_binding (hP : P.signing.Ideal signed) {registry' : Registry τ}
    {data' domain' : Bytes} {e' : Envelope Pub} {r' : ρ}
    (h : consumeEnvelope I P registry data domain = .ok (e, r))
    (h' : consumeEnvelope I P registry' data' domain' = .ok (e', r'))
    (hkey : e'.publicKey = e.publicKey) (hsig : e'.signature = e.signature) :
    domain = domain' ∧ e.payloadType = e'.payloadType ∧ e.rawPayload = e'.rawPayload := by
  have hv := consumeEnvelope_verified h
  have hv' := consumeEnvelope_verified h'
  rw [hkey, hsig] at hv'
  exact makeUnsigned_inj (hP.binding hv hv')

/-! ## The way through an envelope -/

/-- The encodings of keys and envelopes can be undone. -/
structure Primitives.RoundTrip (P : Primitives Priv Pub κ ε) : Prop where
  publicKeys : P.publicKeys.RoundTrips
  envelopes : P.envelopes.RoundTrips

theorem unmarshalEnvelope_marshal (hP : P.RoundTrip) :
    ∃ data, marshal P e = .ok data ∧ unmarshalEnvelope P data = .ok e := by
  obtain ⟨key, henc, hdec⟩ := hP.publicKeys e.publicKey
  obtain ⟨data, hmarshal, hunmarshal⟩ := hP.envelopes
    { publicKey := key, payloadType := e.payloadType, payload := e.rawPayload,
      signature := e.signature }
  refine ⟨data, ?_, ?_⟩
  · rw [marshal, henc, foreign_ok, ok_bind, hmarshal, foreign_ok]
  · rw [unmarshalEnvelope, hunmarshal, foreign_ok, ok_bind, hdec]
    rfl

variable {payload : Bytes}

/-- A record is sealed if it can be marshalled and has a domain and a codec. -/
theorem sealRecord_ok (hP : P.signing.Ideal signed) {rec : ρ} (key : Priv)
    (hmarshal : I.marshalRecord rec = .ok payload) (hdomain : I.domain rec ≠ [])
    (hcodec : I.codec rec ≠ []) :
    ∃ e, sealRecord I P rec key = .ok e ∧ e.payloadType = I.codec rec ∧
      e.rawPayload = payload ∧ validate P e (I.domain rec) = .ok () := by
  obtain ⟨sig, hsign⟩ := hP.total key (makeUnsigned (I.domain rec) (I.codec rec) payload)
  refine ⟨⟨P.signing.getPublic key, I.codec rec, payload, sig⟩, ?_, rfl, rfl,
    validate_eq_ok.mpr (hP.accepted hsign)⟩
  rw [sealRecord, hmarshal, ok_bind]
  rw [if_neg hdomain, if_neg hcodec, hsign]
  rfl

/-- The consumer of a sealed record gets what the registered type reads. -/
theorem consumeEnvelope_sealRecord (hideal : P.signing.Ideal signed) (hP : P.RoundTrip) (rec : ρ)
    {rec' : ρ} {valueType : τ} (key : Priv)
    (hmarshal : I.marshalRecord rec = .ok payload) (hdomain : I.domain rec ≠ [])
    (hcodec : I.codec rec ≠ []) (hreg : registry (I.codec rec) = some valueType)
    (hread : I.unmarshalRecord valueType payload = .ok rec') :
    ∃ e data, sealRecord I P rec key = .ok e ∧ marshal P e = .ok data ∧
      consumeEnvelope I P registry data (I.domain rec) = .ok (e, rec') := by
  obtain ⟨e, hseal, htype, hpayload, hvalid⟩ := sealRecord_ok hideal key hmarshal hdomain hcodec
  obtain ⟨data, hdata, he⟩ := unmarshalEnvelope_marshal hP
  refine ⟨e, data, hseal, hdata, consumeEnvelope_eq_ok.mpr ⟨he, hvalid, ?_⟩⟩
  rw [htype, hpayload, unmarshalRecordPayload, blankRecordForPayloadType, hreg]
  rw [ok_bind, hread, handlePanic_ok]

end Dep2p.Record
