import Dep2p.HttpAuth.Handshake

/- Headers and signed data can be read in one way only.

   What is proved:
     1. `SigParam.ofPart_part` — a part whose name has no equals sign can be read back, so that
        signed data determine the parts (with `genDataToSign_inj`).
     2. `parseParams_fields` — the parser finds the fields that the builder wrote.
   `encodings_unambiguous` puts the two together. -/
namespace Dep2p.HttpAuth

open List

/-! ## Signed data -/

/-- The part that some bytes are. -/
def SigParam.ofPart (b : Bytes) : SigParam :=
  ⟨b.takeWhile (· ≠ 0x3D), (b.dropWhile (· ≠ 0x3D)).tail⟩

theorem takeWhile_key {k : Bytes} (hk : 0x3D ∉ k) (rest : Bytes) :
    (k ++ 0x3D :: rest).takeWhile (· ≠ 0x3D) = k ∧
      (k ++ 0x3D :: rest).dropWhile (· ≠ 0x3D) = 0x3D :: rest := by
  have hall : ∀ b ∈ k, decide (b ≠ 0x3D) = true := by
    intro b hb
    exact decide_eq_true fun h => hk (h ▸ hb)
  rw [takeWhile_append_of_pos hall, dropWhile_append_of_pos hall]
  simp

theorem SigParam.ofPart_part {p : SigParam} (hk : 0x3D ∉ p.k) : ofPart p.part = p := by
  obtain ⟨htake, hdrop⟩ := takeWhile_key hk p.v
  rw [ofPart, part, htake, hdrop, tail_cons]

/-- Data that are equal were made of the same parts. -/
theorem genDataToSign_perm {scheme : Bytes} {ps qs : List SigParam}
    (hps : ∀ p ∈ ps, 0x3D ∉ p.k) (hqs : ∀ p ∈ qs, 0x3D ∉ p.k)
    (h : genDataToSign scheme ps = genDataToSign scheme qs) : ps.Perm qs := by
  have hread : ∀ l : List SigParam, (∀ p ∈ l, 0x3D ∉ p.k) →
      ((l.insertionSort fun a b => a.k ≤ b.k).map SigParam.part).map .ofPart =
        l.insertionSort fun a b => a.k ≤ b.k := by
    intro l hl
    rw [map_map]
    refine (map_congr_left fun p hp => ?_).trans (map_id _)
    exact SigParam.ofPart_part (hl p ((perm_insertionSort _ l).subset hp))
  have heq := congrArg (map SigParam.ofPart) (genDataToSign_inj h)
  rw [hread ps hps, hread qs hqs] at heq
  exact (perm_insertionSort _ ps).symm.trans (heq ▸ perm_insertionSort _ qs)

/-! ## The fields of a header -/

inductive Known where
  | bearer | challengeClient | challengeServer | opaqueB64 | publicKey | sig
  deriving DecidableEq

def Known.key : Known → Bytes
  | .bearer => bytes "bearer"
  | .challengeClient => bytes "challenge-client"
  | .challengeServer => bytes "challenge-server"
  | .opaqueB64 => bytes "opaque"
  | .publicKey => bytes "public-key"
  | .sig => bytes "sig"

def Params.get (p : Params) : Known → Option Bytes
  | .bearer => p.bearerTokenB64
  | .challengeClient => p.challengeClient
  | .challengeServer => p.challengeServer
  | .opaqueB64 => p.opaqueB64
  | .publicKey => p.publicKeyB64
  | .sig => p.sigB64

def Params.set (p : Params) (v : Bytes) : Known → Params
  | .bearer => { p with bearerTokenB64 := some v }
  | .challengeClient => { p with challengeClient := some v }
  | .challengeServer => { p with challengeServer := some v }
  | .opaqueB64 => { p with opaqueB64 := some v }
  | .publicKey => { p with publicKeyB64 := some v }
  | .sig => { p with sigB64 := some v }

/-- The alphabet of base64url, with the padding. -/
def base64Url : Bytes := bytes "ABCDEFGHIJKLMNOPQRSTUVWXYZabcdefghijklmnopqrstuvwxyz0123456789-_="

structure Field where
  name : Known
  val : Bytes
  nonempty : val ≠ []
  base64 : ∀ b ∈ val, b ∈ base64Url

/-- The header that the builder makes of some fields. -/
def headerOf (fields : List Field) : Bytes :=
  (fields.foldl (fun h f => h.writeParam f.name.key f.val)
    (HeaderBuilder.writeScheme {} peerIDAuthScheme)).b

/-- A field as it is written. -/
def Field.text (f : Field) : Bytes := f.name.key ++ 0x3D :: 0x22 :: (f.val ++ [0x22])

variable {ε : Type} {f : Field} {fields : List Field} {p : Params} {k : Known} {v : Bytes}

theorem get_set (k' : Known) : (p.set v k).get k' = if k' = k then some v else p.get k' := by
  cases k <;> cases k' <;> rfl

theorem key_inj {k' : Known} : k.key = k'.key ↔ k = k' := by
  refine ⟨fun h => ?_, fun h => h ▸ rfl⟩
  cases k <;> cases k' <;> first | rfl | exact absurd h (by decide +kernel)

theorem key_plain : ∀ b ∈ k.key, b ≠ 0x3D ∧ isSeparator b = false := by
  cases k <;> decide +kernel

theorem writeParam_eq (h : HeaderBuilder) : h.writeParam f.name.key f.val =
    ⟨h.b ++ ((if h.pastFirstField then bytes ", " else []) ++ f.text), true⟩ := by
  have hquote : bytes "=\"" = [0x3D, 0x22] := by decide +kernel
  have hval : f.val.isEmpty = false := by simpa using f.nonempty
  simp only [HeaderBuilder.writeParam, hval, HeaderBuilder.maybeAddComma, Field.text, hquote]
  cases h.pastFirstField <;> simp

theorem foldl_writeParam (h : HeaderBuilder) (hpast : h.pastFirstField = true) :
    (fields.foldl (fun h f => h.writeParam f.name.key f.val) h).b =
      h.b ++ fields.flatMap fun f => bytes ", " ++ f.text := by
  induction fields generalizing h with
  | nil => simp
  | cons f fields ih =>
    rw [foldl_cons, writeParam_eq, ih _ rfl, hpast, flatMap_cons, if_pos rfl, append_assoc]

theorem headerOf_cons : headerOf (f :: fields) = peerIDAuthScheme ++
    ([0x20] ++ f.text ++ fields.flatMap fun f => bytes ", " ++ f.text) := by
  rw [headerOf, foldl_cons, writeParam_eq, foldl_writeParam _ rfl]
  simp [HeaderBuilder.writeScheme]

/-! ## Parsing -/

theorem setParam_text : setParam p f.text = some (p.set f.val f.name) := by
  have hk : 0x3D ∉ f.name.key := fun h => (key_plain _ h).1 rfl
  obtain ⟨htake, hdrop⟩ := takeWhile_key hk (0x22 :: (f.val ++ [0x22]))
  have hquotes : ¬ ((0x22 :: (f.val ++ [0x22])).length < 2 ∨
      (0x22 :: (f.val ++ [0x22])).head? ≠ some 0x22 ∨
      (0x22 :: (f.val ++ [0x22])).getLast? ≠ some 0x22) := by
    rw [← cons_append, getLast?_concat]
    simp
  simp only [setParam, Field.text, htake, hdrop, if_neg hquotes, tail_cons, dropLast_concat]
  change (if f.name.key = Known.bearer.key then _
    else if f.name.key = Known.challengeClient.key then _
    else if f.name.key = Known.challengeServer.key then _
    else if f.name.key = Known.opaqueB64.key then _
    else if f.name.key = Known.publicKey.key then _
    else if f.name.key = Known.sig.key then _ else _) = _
  simp only [key_inj]
  cases f.name <;> rfl

theorem text_plain : ∀ b ∈ f.text, isSeparator b = false := by
  have hval : ∀ b ∈ base64Url, isSeparator b = false := by decide +kernel
  intro b hb
  simp only [Field.text, mem_append, mem_cons, not_mem_nil, or_false] at hb
  rcases hb with hb | rfl | rfl | hb | rfl
  · exact (key_plain b hb).2
  · rfl
  · rfl
  · exact hval b (f.base64 b hb)
  · rfl

/-- A field behind separators is the next token. -/
theorem split_text {sep rest : Bytes} (hsep : ∀ b ∈ sep, isSeparator b = true)
    (hrest : ∀ b ∈ rest.head?, isSeparator b = true) :
    splitAuthHeaderParams (sep ++ f.text ++ rest) = some (f.text, rest) := by
  have heq : (0x3D : UInt8) ∈ f.text := by simp [Field.text]
  have hplain := text_plain (f := f)
  generalize f.text = token at heq hplain
  cases token with
  | nil => cases heq
  | cons b bs =>
    obtain ⟨hb, hbs⟩ := forall_mem_cons.mp hplain
    have hskip : (sep ++ (b :: bs) ++ rest).dropWhile isSeparator = b :: (bs ++ rest) := by
      rw [append_assoc, dropWhile_append_of_pos hsep, cons_append, dropWhile_cons, hb]
      rfl
    have hbs' : ∀ b ∈ bs, (!isSeparator b) = true := fun b hb => by rw [hbs b hb]; rfl
    have hstop : rest.takeWhile (!isSeparator ·) = [] ∧ rest.dropWhile (!isSeparator ·) = rest := by
      cases rest with
      | nil => exact ⟨rfl, rfl⟩
      | cons c rest => simp [hrest c rfl]
    simp only [splitAuthHeaderParams, hskip, takeWhile_append_of_pos hbs',
      dropWhile_append_of_pos hbs', hstop.1, hstop.2]
    simp [heq]

theorem parseParams_next {data rest token : Bytes} {p' : Params}
    (hs : splitAuthHeaderParams data = some (token, rest)) (hp : setParam p token = some p') :
    parseParams (ε := ε) p data = parseParams p' rest := by
  rw [parseParams]
  split
  · rename_i h
    rw [hs] at h
    cases h
  · rename_i h
    rw [hs] at h
    cases h
    simp [hp]

/-- The parser sets the parameters that the fields name. -/
theorem parseParams_fields {sep : Bytes} (hsep : ∀ b ∈ sep, isSeparator b = true) (p : Params) :
    parseParams (ε := ε) p (sep ++ f.text ++ fields.flatMap fun f => bytes ", " ++ f.text) =
      ((f :: fields).foldl (fun p f => p.set f.val f.name) p, .ok ()) := by
  have hcomma : bytes ", " = [0x2C, 0x20] := by decide +kernel
  induction fields generalizing f p sep with
  | nil =>
    rw [parseParams_next (split_text hsep (by simp)) setParam_text]
    simp [parseParams, splitAuthHeaderParams]
  | cons g fields ih =>
    rw [parseParams_next (split_text hsep (by simp [hcomma, isSeparator])) setParam_text]
    exact ih (by simp [hcomma, isSeparator]) _

/-- Each field sets its parameter, and the others stay as they are. -/
theorem foldl_set_get (hnd : (fields.map (·.name)).Nodup) :
    (∀ f ∈ fields, (fields.foldl (fun p f => p.set f.val f.name) p).get f.name = some f.val) ∧
      ∀ k, (∀ f ∈ fields, f.name ≠ k) →
        (fields.foldl (fun p f => p.set f.val f.name) p).get k = p.get k := by
  induction fields generalizing p with
  | nil => exact ⟨nofun, fun _ _ => rfl⟩
  | cons f fields ih =>
    obtain ⟨hf, hnd⟩ := nodup_cons.mp hnd
    obtain ⟨hset, hother⟩ := ih hnd
    simp only [foldl_cons]
    refine ⟨forall_mem_cons.mpr ⟨?_, hset⟩, fun k hk => ?_⟩
    · rw [hother f.name fun g hg heq => hf (mem_map.mpr ⟨g, hg, heq⟩), get_set, if_pos rfl]
    · obtain ⟨hk, hrest⟩ := forall_mem_cons.mp hk
      rw [hother k hrest, get_set, if_neg hk.symm]

theorem afterFirst_scheme (rest : Bytes) :
    afterFirst peerIDAuthScheme (peerIDAuthScheme ++ rest) = some rest := by
  have hcons : ∃ b bs, peerIDAuthScheme = b :: bs := ⟨0x64, bytes "ep2p-PeerID", by decide +kernel⟩
  obtain ⟨b, bs, heq⟩ := hcons
  simp [heq, afterFirst]

/-- Equal signed data have the same parts, and a header gives back the fields it was built
from and no others. -/
theorem encodings_unambiguous :
    (∀ (scheme : Bytes) (ps qs : List SigParam), (∀ p ∈ ps, 0x3D ∉ p.k) → (∀ p ∈ qs, 0x3D ∉ p.k) →
      genDataToSign scheme ps = genDataToSign scheme qs → ps.Perm qs) ∧
    ∀ fields : List Field, fields ≠ [] → (fields.map (·.name)).Nodup →
      (headerOf fields).length ≤ maxHeaderSize →
      ∃ p, parsePeerIDAuthSchemeParams (ε := ε) {} (headerOf fields) = (p, .ok ()) ∧
        (∀ f ∈ fields, p.get f.name = some f.val) ∧
        ∀ k, (∀ f ∈ fields, f.name ≠ k) → p.get k = none := by
  refine ⟨fun _ _ _ hps hqs h => genDataToSign_perm hps hqs h, fun fields hne hnd hlen => ?_⟩
  obtain ⟨f, fields, rfl⟩ := exists_cons_of_ne_nil hne
  obtain ⟨hset, hother⟩ := foldl_set_get (p := {}) hnd
  refine ⟨_, ?_, hset, fun k hk => (hother k hk).trans (by cases k <;> rfl)⟩
  rw [parsePeerIDAuthSchemeParams, if_neg (not_lt.mpr hlen), headerOf_cons, afterFirst_scheme]
  exact parseParams_fields (by simp [isSeparator]) {}

/-- A public key and a signature. -/
def sigFields : List Field :=
  [⟨.publicKey, bytes "Aw-_", by decide +kernel, by decide +kernel⟩,
    ⟨.sig, bytes "QQ==", by decide +kernel, by decide +kernel⟩]

/-- An equals sign in a value cannot be taken for one between parts, and a header of two fields is
read back. -/
theorem encodings_unambiguous_sig :
    genDataToSign [] [⟨bytes "a", bytes "b"⟩, ⟨bytes "c", bytes "d"⟩] ≠
        genDataToSign [] [⟨bytes "a", bytes "b=d"⟩, ⟨bytes "c", []⟩] ∧
    ∃ p, parsePeerIDAuthSchemeParams (ε := Empty) {} (headerOf sigFields) = (p, .ok ()) ∧
      p.get .publicKey = some (bytes "Aw-_") ∧ p.get .sig = some (bytes "QQ==") ∧
      p.get .opaqueB64 = none := by
  refine ⟨fun heq => ?_, ?_⟩
  · have hperm := (encodings_unambiguous (ε := Empty)).1 _ _ _ (by decide +kernel)
      (by decide +kernel) heq
    revert hperm
    decide +kernel
  · obtain ⟨p, hp, hset, hother⟩ := (encodings_unambiguous).2 sigFields (by simp [sigFields])
      (by decide +kernel) (by decide +kernel)
    exact ⟨p, hp, hset _ mem_cons_self, hset _ (mem_cons_of_mem _ mem_cons_self),
      hother _ (by decide +kernel)⟩

end Dep2p.HttpAuth
