import Dep2p.Lib.Fault

/- Ideal primitives: encodings that can be undone and signatures that cannot be forged.

   They are parameters of the protocols that use them. What is assumed about them is a
   structure of laws, so that a result says which of them it rests on. -/
namespace Dep2p.Lib

variable {ε α β : Type}

/-- An encoding and its decoding, both of which may fail. -/
structure Codec (α β ε : Type) where
  encode : α → Except ε β
  decode : β → Except ε α

namespace Codec

/-- Every value is encoded and decoded to itself. -/
def RoundTrips (c : Codec α β ε) : Prop :=
  ∀ a, ∃ b, c.encode a = .ok b ∧ c.decode b = .ok a

open Classical in
/-- The codec of an injective function; `e` is the error of what it does not reach. -/
noncomputable def ofFun (f : α → β) (e : ε) : Codec α β ε where
  encode a := .ok (f a)
  decode b := if h : ∃ a, f a = b then .ok h.choose else .error e

theorem ofFun_roundTrips {f : α → β} (hf : Function.Injective f) (e : ε) :
    (ofFun f e).RoundTrips := by
  intro a
  have hex : ∃ a', f a' = f a := ⟨a, rfl⟩
  refine ⟨f a, rfl, ?_⟩
  simp only [ofFun]
  rw [dif_pos hex, hf hex.choose_spec]

end Codec

/-- Signatures of private keys on messages. -/
structure Signing (Priv Pub Msg Sig ε : Type) where
  getPublic : Priv → Pub
  sign : Priv → Msg → Except ε Sig
  verify : Pub → Msg → Sig → Except ε Bool

namespace Signing

variable {Priv Pub Msg Sig : Type}

/-- Ideal signatures: every key signs every message, what it signs is accepted, and a
signature is accepted for one message only, which the owner of the key has signed. -/
structure Ideal (S : Signing Priv Pub Msg Sig ε) (signed : Pub → Msg → Prop) : Prop where
  total : ∀ k m, ∃ s, S.sign k m = .ok s
  accepted : ∀ {k m s}, S.sign k m = .ok s → S.verify (S.getPublic k) m s = .ok true
  unforgeable : ∀ {p m s}, S.verify p m s = .ok true → signed p m
  binding : ∀ {p m m' s}, S.verify p m s = .ok true → S.verify p m' s = .ok true → m = m'

/-- A signature is a function of the message: no owner keeps a key from signing. -/
def ofFun [DecidableEq Sig] (f : Msg → Sig) : Signing Pub Pub Msg Sig ε where
  getPublic := id
  sign _ m := .ok (f m)
  verify _ m s := .ok (decide (f m = s))

variable {f : Msg → Sig}

theorem ofFun_verify [DecidableEq Sig] {p : Pub} {m : Msg} {s : Sig} :
    (ofFun f : Signing Pub Pub Msg Sig ε).verify p m s = .ok true ↔ f m = s := by
  simp [ofFun]

theorem ofFun_ideal [DecidableEq Sig] (hf : Function.Injective f) :
    Ideal (ofFun f : Signing Pub Pub Msg Sig ε) fun _ _ => True where
  total _ m := ⟨f m, rfl⟩
  accepted h := by
    cases h
    exact ofFun_verify.mpr rfl
  unforgeable _ := trivial
  binding h h' := hf ((ofFun_verify.mp h).trans (ofFun_verify.mp h').symm)

end Signing

end Dep2p.Lib
