import Dep2p.HttpAuth.Challenges

/- Bearer tokens and the hosts they were given out for (`server.go`).

   A token names the host of its handshake. The answer to a challenge is checked against
   the host of the request, but of a token `Run` checks the kind and the age only, so servers
   for different hosts that share an HMAC key take each other's tokens.

   What is proved:
     1. `tokens_given` — every token in a run was given out at the end of a handshake.
     2. `bearer_bound_iff` — whoever is let in by a token finished a handshake no longer than
        its lifetime ago, and that was for this host exactly where the token names it.
     3. `token_of_other_host` — a run in which it was not. -/
namespace Dep2p.HttpAuth

open Lib List Server

variable {ε Priv Pub : Type} {E : ServerExternals Priv Pub ε} {start w : World Pub}
  {call : Call Priv ε} {o : OpaqueState}

namespace World

/-- On the way from `start` to `w` the request `call` ended a handshake, and the token `o`
went out for it. -/
def Gave (E : ServerExternals Priv Pub ε) (start w : World Pub) (call : Call Priv ε)
    (o : OpaqueState) : Prop :=
  ∃ w' h, Reach (step E) (Ideal E) start w' ∧ IdealCall E w' call ∧ call.serve E = .ok h ∧
    h.state = .verifyChallenge ∧ h.opaqueState = o ∧
    Reach (step E) (Ideal E) (w'.step E (.serve call)) w

theorem Gave.fields (h : Gave E start w call o) :
    o.hostname = call.hostname ∧ o.createdTime = call.now' := by
  obtain ⟨w', h, -, -, hserve, hstate, rfl, -⟩ := h
  obtain ⟨_, _, _, _, _, _, -, -, -, -, -, -, -, -, -, -, htoken⟩ := Call.serve_answer hserve hstate
  rw [htoken]
  exact ⟨rfl, rfl⟩

theorem tokens_given (hstart : start.marshalled = [])
    (hr : Reach (step E) (Ideal E : World Pub → Event Priv Pub ε → Prop) start w) :
    ∀ o ∈ w.marshalled, o.isToken = true → ∃ call, Gave E start w call o := by
  apply Reach.invariant _ _ hr
  · simp [hstart]
  intro w ev hr hev ih o ho htoken
  by_cases hold : o ∈ w.marshalled
  · obtain ⟨call, w', h, hr', hcall, hserve, hstate, heq, hlater⟩ := ih o hold htoken
    exact ⟨call, w', h, hr', hcall, hserve, hstate, heq, hlater.step ev hev⟩
  cases ev with
  | sign key msg => exact absurd ho hold
  | serve call =>
    have hnew := ho
    unfold step at hnew
    dsimp only at hnew
    split at hnew
    · exact absurd hnew hold
    rename_i h hserve
    -- a state that is new is that of the reply, and only an answer is replied to by a token
    have hreply : h.state = .verifyChallenge ∧ h.opaqueState = o := by
      have hchallenge := Call.serve_challenge hserve
      unfold reply at hnew
      grind
    exact ⟨call, w, h, hr, hev, hserve, hreply.1, hreply.2, .init⟩

end World

/-- Whoever is let in by a token has finished a handshake no longer than the lifetime of the
token ago; it was for the host of the request exactly where the token names that host. -/
theorem bearer_bound_iff (hE : E.Faithful) {clock : Time} {signed : List (Pub × Bytes)}
    (hr : Reach (World.step E) (World.Ideal E) { clock, signed } w) (call : Call Priv ε)
    (hcall : World.IdealCall E w call) (h : Server Priv) (hserve : call.serve E = .ok h)
    (hstate : h.state = .verifyBearer) {P : Bytes}
    (hP : (h.peerID : Except (HandshakeErr ε) Bytes) = .ok P) :
    (∃ call₀ o d, World.Gave E { clock, signed } w call₀ o ∧
        E.decodeB64 (call.params.bearerTokenB64.getD []) = .ok d ∧ unmarshalOpaque E d = .ok o ∧
        o.peerID = P ∧ call₀.hostname = call.hostname ∧
        call.now ≤ call₀.now' + call.tokenTTL) ↔
      ∀ d o, E.decodeB64 (call.params.bearerTokenB64.getD []) = .ok d →
        unmarshalOpaque E d = .ok o → o.hostname = call.hostname := by
  obtain ⟨d, fields, hd, hauth, hdec, htoken, hyoung⟩ := Call.serve_bearer hserve hstate
  have hun : unmarshalOpaque E d = .ok h.opaqueState := by
    simp [unmarshalOpaque, hauth, foreign, mapError_eq_ok, hdec]
  constructor
  · rintro ⟨call₀, o, d₁, hgave, hd₁, hun₁, -, hhost, -⟩ d₂ o₂ hd₂ hun₂
    cases hd₁.symm.trans hd₂
    cases hun₁.symm.trans hun₂
    rw [hgave.fields.1, hhost]
  · intro hbound
    have ho := (World.kept_of_reach hE hr).decode hE hcall.token hd hauth hdec
    obtain ⟨call₀, hgave⟩ := World.tokens_given rfl hr _ ho htoken
    obtain ⟨hhost, htime⟩ := hgave.fields
    rw [htime] at hyoung
    exact ⟨call₀, _, d, hgave, hd, hun, peerID_ok hP, hhost.symm.trans (hbound d _ hd hun), hyoung⟩

/-- The client of `answering` has been let in and has a token for the host `h`. -/
def admitted : World Unit := asked.step plainExternals (.serve answering)

def bearing (hostname : Bytes) : Call Unit Unit where
  hostname
  privKey := ()
  tokenTTL := 10
  header := peerIDAuthScheme ++ bytes " bearer=\"mtDhp\""
  now := 70
  now' := 70
  random := .error ()

theorem admitted_reach : Reach (.step plainExternals) (World.Ideal plainExternals)
    { clock := 60, signed := [] } admitted :=
  asked_reach.step (Event.serve answering) answering_ideal

/-- What the bearer sends, what the answer has left behind and how the bearer's request ends. -/
theorem bearing_values :
    Utf8.valid (bytes "g") = true ∧
    (bearing []).params = { bearerTokenB64 := some (bytes "mtDhp") } ∧ admitted.clock ≤ 70 ∧
    ⟨true, [], bytes "p", [], bytes "h", 68⟩ ∈ admitted.marshalled ∧
    (∀ o ∈ admitted.marshalled, o.hostname ≠ bytes "g") ∧
    (plainExternals.json.encode ⟨true, [], bytes "p", [], bytes "h", 68⟩).toOption =
      authenticated plainExternals (bytes "mtDhp") ∧
    (unmarshalOpaque plainExternals (bytes "mtDhp")).toOption.map (·.hostname) = some (bytes "h") ∧
    ∀ H ∈ [bytes "g", bytes "h"], (((bearing H).serve plainExternals).toOption.map fun h =>
      (h.state, h.ran, h.opaqueState.peerID)) = some (.verifyBearer, true, bytes "p") := by
  decide +kernel

theorem bearing_params (H : Bytes) :
    (bearing H).params = { bearerTokenB64 := some (bytes "mtDhp") } :=
  bearing_values.2.1

theorem bearing_ideal {H : Bytes} (hH : Utf8.valid H = true) :
    World.IdealCall plainExternals admitted (bearing H) := by
  obtain ⟨-, -, hclock, hgiven, -, henc, -⟩ := bearing_values
  constructor
  · exact hclock
  · exact le_refl _
  · exact hH
  · rw [bearing_params]
    exact unforged_none _
  · rw [bearing_params]
    exact unforged_of hgiven henc
  · intro sig key msg hsig hver
    rw [bearing_params] at hsig
    cases hsig
    cases Signing.ofFun_verify.mp hver

theorem bearer_bound_admitted : ∃ call₀ o,
    World.Gave plainExternals { clock := 60, signed := [] } admitted call₀ o ∧
      o.peerID = bytes "p" ∧ call₀.hostname = bytes "h" := by
  obtain ⟨-, -, -, -, -, -, hsome, hrun⟩ := bearing_values
  obtain ⟨h, hserve, hstate, hid⟩ := serve_plain (hrun (bytes "h") (by simp)) (.inr rfl)
  obtain ⟨call₀, o, -, hgave, -, -, hP, hhost, -⟩ :=
    (bearer_bound_iff plainExternals_faithful admitted_reach (bearing (bytes "h"))
      (bearing_ideal plain_values.1) h hserve hstate hid).mpr (by
        intro d o hd hun
        rw [bearing_params] at hd
        cases hd
        rw [show unmarshalOpaque plainExternals (bytes "mtDhp") = .ok o from hun] at hsome
        exact Option.some.inj hsome)
  exact ⟨call₀, o, hgave, hP, hhost⟩

theorem token_of_other_host :
    Reach (World.step plainExternals) (World.Ideal plainExternals) { clock := 60, signed := [] }
      admitted ∧
    World.IdealCall plainExternals admitted (bearing (bytes "g")) ∧
    (∃ h, (bearing (bytes "g")).serve plainExternals = .ok h ∧ h.state = .verifyBearer ∧
      (h.peerID : Except (HandshakeErr Unit) Bytes) = .ok (bytes "p")) ∧
    ∀ o ∈ admitted.marshalled, o.hostname ≠ bytes "g" := by
  obtain ⟨hhost, -, -, -, hother, -, -, hrun⟩ := bearing_values
  exact ⟨admitted_reach, bearing_ideal hhost,
    serve_plain (hrun (bytes "g") (by simp)) (.inr rfl), hother⟩

end Dep2p.HttpAuth
