import Dep2p.Multiaddr.Codec
import Dep2p.Multiformats.Multihash
import Dep2p.Record.Envelope

/- Peer records in envelopes (`core/peer/record.go`, `peer.go`, `peer_serde.go`).

   A peer record tells where a peer listens. Its addresses travel as bytes and are parsed
   again on arrival; those that are not valid are dropped. Log lines and the sequence numbers
   a caller may take from the clock are left out.

   Correspondence (Go ↔ Lean):
     `ID`, `IDFromBytes`                             ↔ `ID`, `idFromBytes`
     `PeerRecord`, `pb.PeerRecord`                   ↔ `PeerRecord`, `PbPeerRecord`
     `ToProtobuf`, `PeerRecordFromProtobuf`          ↔ `toProtobuf`, `peerRecordFromProtobuf`
     `MarshalRecord`, `UnmarshalRecord`              ↔ `marshalRecord`, `unmarshalRecord`

   The result is that the signature on an envelope stands for its domain, payload type and
   payload, and that every peer record arrives as it was sealed (`envelopes_faithful`). -/
namespace Dep2p.Peer

open Multiaddr hiding Bytes
open Lib Varint Record

/-- The bytes of a multihash, if the ID is valid. -/
abbrev ID := Bytes

def idFromBytes (b : Bytes) : Except (Fault Multihash.Err) ID := do
  let _ ← Multihash.cast b
  return b

def peerRecordEnvelopeDomain : Bytes := "dep2p-peer-record".toUTF8.toList

def peerRecordEnvelopePayloadType : Bytes := [0x03, 0x01]

variable {δ ε : Type}

structure PeerRecord (ps : Protocols δ) where
  peerID : ID
  addrs : List (Binary ps)
  seq : UInt64

/-- `pb.PeerRecord_AddressInfo` -/
structure PbAddressInfo where
  multiaddr : Bytes

structure PbPeerRecord where
  peerId : Bytes
  addresses : List PbAddressInfo
  seq : UInt64

variable {ps : Protocols δ}

def addrsToProtobuf (addrs : List (Binary ps)) : List PbAddressInfo :=
  addrs.map fun a => ⟨a.bytes⟩

def addrsFromProtobuf (ps : Protocols δ) (addrs : List PbAddressInfo) : List (Binary ps) :=
  addrs.filterMap fun a =>
    match newMultiaddrBytes ps a.multiaddr with
    | .error _ => none
    | .ok a => some a

def toProtobuf (r : PeerRecord ps) : PbPeerRecord where
  peerId := r.peerID
  addresses := addrsToProtobuf r.addrs
  seq := r.seq

def peerRecordFromProtobuf (ps : Protocols δ) (msg : PbPeerRecord) :
    Except (Fault Multihash.Err) (PeerRecord ps) := do
  let id ← idFromBytes msg.peerId
  return { peerID := id, addrs := addrsFromProtobuf ps msg.addresses, seq := msg.seq }

/-- `proto.Marshal` and `proto.Unmarshal` of peer records; `ofHash` makes an error of one of
a multihash. -/
structure PeerProto (ε : Type) where
  peerRecords : Codec PbPeerRecord Bytes ε
  ofHash : Multihash.Err → ε

variable (R : PeerProto ε)

def marshalRecord (r : PeerRecord ps) : Except (EnvelopeErr ε) Bytes :=
  foreign (R.peerRecords.encode (toProtobuf r))

def unmarshalRecord (ps : Protocols δ) (bytes : Bytes) : Except (EnvelopeErr ε) (PeerRecord ps) :=
  handlePanic "dep2p peer record unmarshal" do
    let msg ← (foreign (R.peerRecords.decode bytes)).mapError .err
    Fault.wrap (fun err => .foreign (R.ofHash err)) (peerRecordFromProtobuf ps msg)

/-- Peer records next to the records of all other types. -/
def recordInterface {σ τ : Type} (ps : Protocols δ) (I : Interface σ τ ε) :
    Interface (PeerRecord ps ⊕ σ) (Option τ) ε where
  valueType
    | .inl _ => none
    | .inr r => some (I.valueType r)
  domain
    | .inl _ => peerRecordEnvelopeDomain
    | .inr r => I.domain r
  codec
    | .inl _ => peerRecordEnvelopePayloadType
    | .inr r => I.codec r
  marshalRecord
    | .inl r => marshalRecord R r
    | .inr r => I.marshalRecord r
  unmarshalRecord
    | none => fun b => ((unmarshalRecord R ps b).map .inl).mapError .err
    | some t => fun b => (I.unmarshalRecord t b).map .inr

/-- The prototype that `init` registers. -/
def prototypeRecord (ps : Protocols δ) : PeerRecord ps where
  peerID := []
  addrs := []
  seq := 0

/-! ## The way of a peer record -/

theorem addrsFromProtobuf_addrsToProtobuf (addrs : List (Binary ps)) :
    addrsFromProtobuf ps (addrsToProtobuf addrs) = addrs := by
  induction addrs with
  | nil => rfl
  | cons a addrs ih =>
    unfold addrsFromProtobuf addrsToProtobuf at ih ⊢
    rw [List.map_cons, List.filterMap_cons]
    simp only [newMultiaddrBytes_bytes]
    rw [ih]

variable {r : PeerRecord ps}

theorem peerRecordFromProtobuf_toProtobuf
    (hid : idFromBytes r.peerID = .ok r.peerID) :
    peerRecordFromProtobuf ps (toProtobuf r) = .ok r := by
  simp only [peerRecordFromProtobuf, toProtobuf, hid, addrsFromProtobuf_addrsToProtobuf]
  rfl

variable {R}

theorem unmarshalRecord_marshalRecord (hR : R.peerRecords.RoundTrips)
    (hid : idFromBytes r.peerID = .ok r.peerID) :
    ∃ payload, marshalRecord R r = .ok payload ∧ unmarshalRecord R ps payload = .ok r := by
  obtain ⟨payload, henc, hdec⟩ := hR (toProtobuf r)
  refine ⟨payload, by rw [marshalRecord, henc, foreign_ok], ?_⟩
  rw [unmarshalRecord, hdec]
  change handlePanic _ (Fault.wrap _ (peerRecordFromProtobuf ps (toProtobuf r))) = _
  rw [peerRecordFromProtobuf_toProtobuf hid, Fault.wrap_ok, handlePanic_ok]

theorem peerRecordEnvelopeDomain_ne_nil : peerRecordEnvelopeDomain ≠ [] := by decide +kernel

/-- Peer records are read from payloads of their type as long as no other type registers
for it. -/
theorem foldl_registerType_peer {σ τ : Type} (I : Interface σ τ ε)
    (earlier later : List (PeerRecord ps ⊕ σ))
    (h : ∀ r, .inr r ∈ later → I.codec r ≠ peerRecordEnvelopePayloadType) :
    (earlier ++ .inl (prototypeRecord ps) :: later).foldl (registerType (recordInterface R ps I))
      (fun _ => none) peerRecordEnvelopePayloadType = some none := by
  rw [List.foldl_append]
  refine foldl_registerType _ later (Function.update_self ..) ?_
  intro p hp hcodec
  cases p with
  | inl r => rfl
  | inr r => exact absurd hcodec (h r hp)

section Main

variable {σ τ Priv Pub κ : Type}

/-- The signature on an envelope stands for the domain, payload type and payload, which its
owner signed, and peer records come out of their envelopes as they went in. -/
theorem envelopes_faithful (P : Primitives Priv Pub κ ε) (hP : P.RoundTrip)
    {signed : Pub → Bytes → Prop} (hideal : P.signing.Ideal signed) (R : PeerProto ε)
    (hR : R.peerRecords.RoundTrips) (ps : Protocols δ) (I : Interface σ τ ε)
    (earlier later : List (PeerRecord ps ⊕ σ))
    (hlater : ∀ r, .inr r ∈ later → I.codec r ≠ peerRecordEnvelopePayloadType) :
    let registry := (earlier ++ .inl (prototypeRecord ps) :: later).foldl
      (registerType (recordInterface R ps I)) fun _ => none
    let consume := consumeEnvelope (recordInterface R ps I) P registry
    (∀ d t p d' t' p', makeUnsigned d t p = makeUnsigned d' t' p' → d = d' ∧ t = t' ∧ p = p') ∧
    (∀ data d e r, consume data d = .ok (e, r) →
      signed e.publicKey (makeUnsigned d e.payloadType e.rawPayload) ∧
      (∀ d' e' r', consume data d' = .ok (e', r') → d' = d) ∧
      ∀ data' d' e' r', consume data' d' = .ok (e', r') → e'.publicKey = e.publicKey →
        e'.signature = e.signature →
          d' = d ∧ e'.payloadType = e.payloadType ∧ e'.rawPayload = e.rawPayload) ∧
    ∀ (key : Priv) (rec : PeerRecord ps), idFromBytes rec.peerID = .ok rec.peerID →
      ∃ e data, sealRecord (recordInterface R ps I) P (.inl rec) key = .ok e ∧
        marshal P e = .ok data ∧ consume data peerRecordEnvelopeDomain = .ok (e, .inl rec) := by
  refine ⟨fun d t p d' t' p' => makeUnsigned_inj, ?_, ?_⟩
  · intro data d e r h
    refine ⟨hideal.unforgeable (consumeEnvelope_verified h), ?_, ?_⟩
    · intro d' e' r' h'
      -- Both times the envelope is the one in `data`.
      have he : e' = e := by
        have h1 := (consumeEnvelope_eq_ok.mp h).1
        have h2 := (consumeEnvelope_eq_ok.mp h').1
        rw [h1] at h2
        exact (Except.ok.inj h2).symm
      subst he
      exact (consumeEnvelope_binding hideal h' h rfl rfl).1
    · intro data' d' e' r' h' hkey hsig
      exact consumeEnvelope_binding hideal h' h hkey.symm hsig.symm
  · intro key rec hid
    obtain ⟨payload, hmarshal, hread⟩ := unmarshalRecord_marshalRecord hR hid
    refine consumeEnvelope_sealRecord hideal hP (Sum.inl rec) key hmarshal
      peerRecordEnvelopeDomain_ne_nil (List.cons_ne_nil _ _)
      (foldl_registerType_peer I earlier later hlater) ?_
    change ((unmarshalRecord R ps payload).map Sum.inl).mapError _ = _
    rw [hread]
    rfl

end Main

/-! A network where every message is its own signature, messages are their fields one after
the other, and vouchers are records too. -/

def fieldsOfEnvelope (e : PbEnvelope Unit) : Bytes :=
  lengthPrefixed [e.payloadType, e.payload, e.signature]

theorem fieldsOfEnvelope_injective : Function.Injective fieldsOfEnvelope := by
  rintro ⟨⟨⟩, t, p, s⟩ ⟨⟨⟩, t', p', s'⟩ h
  have hfields := lengthPrefixed_injective h
  obtain ⟨rfl, rfl, rfl⟩ := hfields
  rfl

def fieldsOfPeerRecord (m : PbPeerRecord) : Bytes :=
  lengthPrefixed (m.peerId :: putUvarint m.seq.toNat :: m.addresses.map (·.multiaddr))

theorem fieldsOfPeerRecord_injective : Function.Injective fieldsOfPeerRecord := by
  rintro ⟨id, addrs, seq⟩ ⟨id', addrs', seq'⟩ h
  have hfields := lengthPrefixed_injective h
  simp only [List.cons.injEq] at hfields
  obtain ⟨rfl, hseq, haddrs⟩ := hfields
  have hseq : seq = seq' := UInt64.toNat_inj.mp (putUvarint_injective hseq)
  have haddrs : addrs = addrs' := by
    refine List.map_injective_iff.mpr ?_ haddrs
    rintro ⟨a⟩ ⟨b⟩ rfl
    rfl
  rw [hseq, haddrs]

noncomputable def plainPrimitives : Primitives Unit Unit Unit Unit where
  signing := Signing.ofFun id
  publicKeys := { encode := .ok, decode := .ok }
  envelopes := Codec.ofFun fieldsOfEnvelope ()

theorem plainPrimitives_roundTrip : plainPrimitives.RoundTrip where
  publicKeys key := ⟨key, rfl, rfl⟩
  envelopes := Codec.ofFun_roundTrips fieldsOfEnvelope_injective ()

noncomputable def plainProto : PeerProto Unit where
  peerRecords := Codec.ofFun fieldsOfPeerRecord ()
  ofHash _ := ()

def voucherInterface : Interface Unit Unit Unit where
  valueType _ := ()
  domain _ := "dep2p-relay-rsvp".toUTF8.toList
  codec _ := [0x03, 0x02]
  marshalRecord _ := .ok []
  unmarshalRecord _ _ := .ok ()

def circuitProtocols : Protocols Unit where
  byName _ := none
  byCode c := if c = P_CIRCUIT then some { code := P_CIRCUIT } else none

def circuitAddr : Binary circuitProtocols where
  bytes := [0xA2, 0x02]
  valid := by
    have hstep : validateComponent circuitProtocols [0xA2, 0x02] = .ok [] := by decide +kernel
    rw [validateBytes, if_neg (by decide), validateComponents_step hstep, validateComponents_nil]

def smallRecord : PeerRecord circuitProtocols where
  peerID := Multihash.encode [1, 2, 3] Multihash.sha2_256
  addrs := [circuitAddr, circuitAddr]
  seq := 7

theorem envelopes_faithful_small :
    ∃ e data, sealRecord (recordInterface plainProto circuitProtocols voucherInterface)
        plainPrimitives (.inl smallRecord) () = .ok e ∧
      marshal plainPrimitives e = .ok data ∧
      consumeEnvelope (recordInterface plainProto circuitProtocols voucherInterface) plainPrimitives
        ([.inl (prototypeRecord circuitProtocols), .inr ()].foldl
          (registerType (recordInterface plainProto circuitProtocols voucherInterface)) fun _ => none)
        data peerRecordEnvelopeDomain = .ok (e, .inl smallRecord) := by
  refine (envelopes_faithful plainPrimitives plainPrimitives_roundTrip
    (Signing.ofFun_ideal Function.injective_id)
    plainProto (Codec.ofFun_roundTrips fieldsOfPeerRecord_injective ()) circuitProtocols
    voucherInterface [] [.inr ()] ?_).2.2 () smallRecord ?_
  · intro r _
    exact of_decide_eq_true rfl
  · decide +kernel

end Dep2p.Peer
