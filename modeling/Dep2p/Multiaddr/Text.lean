import Dep2p.Multiaddr.Views
import Mathlib.Data.List.DropRight

/- The text form of multiaddresses (`codec.go`).

   A text is a sequence of words with a slash before each: the name of a protocol, then its
   value if it takes one. A path takes all words that are left. The parser trims the slashes at
   the end and splits at the slashes.

   Correspondence (Go ↔ Lean):
     `stringToBytes`, its loop                 ↔ `stringToBytes`, `stringToBytesLoop`
     `NewMultiaddr`                            ↔ `newMultiaddr`
     `UnmarshalBinary`, `…Text`, `…JSON`       ↔ `unmarshalBinary`, `…Text`, `…JSON`
     `strings.TrimRight(s, "/")`, `Split`      ↔ `List.rdropWhile`, `List.splitOn` -/
namespace Dep2p.Multiaddr.Wire

open Lib Varint

variable {ε : Type}

/-! ## Parsing -/

/-- What is wrong with a text. -/
inductive Reason (ε : Type) where
  | mustBegin
  | emptyMultiaddr
  | unknownProtocol (name : Bytes)
  | unexpectedEnd
  | invalidValue (value name : Bytes) (err : ε)
  deriving DecidableEq, Repr

structure TextErr (ε : Type) where
  text : Bytes
  reason : Reason ε
  deriving DecidableEq, Repr

/-- The bytes of a component with this value. -/
def textComponent (p : Protocol ε) (value : Bytes) : Except (Fault (Reason ε)) Bytes :=
  match p.transcoder with
  | none => .error .panicked
  | some t =>
    match t.stringToBytes value with
    | .error err => .error (.err (.invalidValue value p.name err))
    | .ok a => .ok (head p a.length ++ a)

def stringToBytesLoop (ps : Protocols ε) : List Bytes → Except (Fault (Reason ε)) Bytes
  | [] => .ok []
  | name :: sp =>
    let p := ps.protocolWithName name
    if p.code = 0 then .error (.err (.unknownProtocol name))
    else if p.size = 0 then do
      let rest ← stringToBytesLoop ps sp
      return p.vcode ++ rest
    else
      match sp with
      | [] => .error (.err .unexpectedEnd)
      | value :: sp =>
        if p.path then textComponent p (47 :: [47].intercalate (value :: sp))
        else do
          let c ← textComponent p value
          let rest ← stringToBytesLoop ps sp
          return c ++ rest

def stringToBytes (ps : Protocols ε) (s : Bytes) : Except (Fault (TextErr ε)) Bytes :=
  let s := s.rdropWhile (· = 47)
  match s.splitOn 47 with
  | [] :: [] => .error (.err ⟨s, .emptyMultiaddr⟩)
  | [] :: sp => Fault.wrap (TextErr.mk s) (stringToBytesLoop ps sp)
  | _ => .error (.err ⟨s, .mustBegin⟩)

/-- A panic in the parser becomes an error, too. -/
def newMultiaddr (ps : Protocols ε) (s : Bytes) : Except (Fault (TextErr ε)) (Addr ε) :=
  (stringToBytes ps s).map .multiaddr

/-! ## Unmarshalling -/

/-- The error of an `Unmarshal` method: that of the parser, in which a panic of the parser is
an error like any other, or that of the JSON decoder. -/
inductive UnmarshalErr (ε J : Type) where
  | bytes (err : Fault (CodecErr ε))
  | text (err : Fault (TextErr ε))
  | json (err : J)
  deriving DecidableEq

/-- The bytes of the receiver after the call, and what the call returns. -/
abbrev Unmarshalled (ε J : Type) := Bytes × Except (Fault (UnmarshalErr ε J)) Unit

section unmarshal

variable {J : Type} (ps : Protocols ε)

def unmarshalBinary (m data : Bytes) : Unmarshalled ε J :=
  match newMultiaddrBytes ps data with
  | .error err => (m, .error (.err (.bytes err)))
  | .ok new => (new.bytes, .ok ())

def unmarshalText (m data : Bytes) : Unmarshalled ε J :=
  match newMultiaddr ps data with
  | .error err => (m, .error (.err (.text err)))
  | .ok new => (new.bytes, .ok ())

/-- `json` is the decoder of a JSON string. -/
def unmarshalJSON (json : Bytes → Except J Bytes) (m data : Bytes) : Unmarshalled ε J :=
  match json data with
  | .error err => (m, .error (.err (.json err)))
  | .ok v =>
    match newMultiaddr ps v with
    -- the error is not looked at before the type assertion on the result, which is nil
    | .error _ => (m, .error .panicked)
    | .ok new => (new.bytes, .ok ())

/-- The receiver is the parsed address, or there is none and it is as it was. -/
def FailureAtomic (m : Bytes) (parsed : Option Bytes) (out : Unmarshalled ε J) : Prop :=
  match parsed with
  | some b => out = (b, .ok ())
  | none => ∃ err, out = (m, .error (.err err))

/-- The address in a JSON string. -/
def parseJSON (json : Bytes → Except J Bytes) (data : Bytes) : Option Bytes :=
  match json data with
  | .error _ => none
  | .ok v => (newMultiaddr ps v).toOption.map Addr.bytes

theorem unmarshalJSON_iff (json : Bytes → Except J Bytes) (m data : Bytes) :
    FailureAtomic m (parseJSON ps json data) (unmarshalJSON ps json m data) ↔
      ∀ v, json data = .ok v → ∃ a, newMultiaddr ps v = .ok a := by
  unfold parseJSON unmarshalJSON
  cases json data with
  | error err =>
    refine iff_of_true ⟨.json err, rfl⟩ fun v hv => ?_
    cases hv
  | ok v =>
    cases hnew : newMultiaddr ps v with
    | error err =>
      simp only [hnew]
      refine iff_of_false ?_ fun h => ?_
      · rintro ⟨err', h⟩
        cases h
      · obtain ⟨a, ha⟩ := h v rfl
        rw [hnew] at ha
        cases ha
    | ok a =>
      simp only [hnew]
      refine iff_of_true rfl fun v' hv => ?_
      cases hv
      exact ⟨a, hnew⟩

/-- Bytes and texts are unmarshalled without a trace of a failure, JSON exactly when the
string in it, if there is one, is an address. -/
theorem unmarshal_failure_atomic (json : Bytes → Except J Bytes) (m data : Bytes) :
    FailureAtomic m ((newMultiaddrBytes ps data).toOption.map Binary.bytes)
        (unmarshalBinary ps m data : Unmarshalled ε J) ∧
      FailureAtomic m ((newMultiaddr ps data).toOption.map Addr.bytes)
        (unmarshalText ps m data : Unmarshalled ε J) ∧
      (FailureAtomic m (parseJSON ps json data) (unmarshalJSON ps json m data) ↔
        ∀ v, json data = .ok v → ∃ a, newMultiaddr ps v = .ok a) := by
  refine ⟨?_, ?_, unmarshalJSON_iff ps json m data⟩
  · unfold unmarshalBinary
    cases newMultiaddrBytes ps data with
    | error err => exact ⟨.bytes err, rfl⟩
    | ok new => rfl
  · unfold unmarshalText
    cases newMultiaddr ps data with
    | error err => exact ⟨.text err, rfl⟩
    | ok new => rfl

end unmarshal

/-- The JSON string `"a"` is no address. -/
theorem unmarshalJSON_panics :
    (unmarshalJSON (⟨fun _ => none, fun _ => none⟩ : Protocols Unit)
      (fun data => (.ok data.tail.dropLast : Except Unit Bytes)) [] [34, 97, 34]).2 =
      .error .panicked := by
  decide +kernel

end Dep2p.Multiaddr.Wire
