import Dep2p.Multistream.Negotiate
import Mathlib.Data.List.Induction
import Mathlib.Data.List.TakeWhile

/- When the two ends of a negotiation agree.

   All interleavings of the two machines end alike, so it is enough to follow one
   run: the client proposes, the server answers each proposal, and every byte that one
   end writes as part of the negotiation is read by the other.

   What is proved:
     1. `feed_token` — a reader that gets a token reads exactly its bytes.
     2. `Proposes.next`, `Proposes.accepted`, `Proposes.mistaken` — what one proposal
        leads to.
     3. `negotiation_agrees_iff` — both ends agree on the first protocol that has a
        handler, or the client learns that there is none, exactly when the client does
        not propose `na` before it has found one.
     4. `na_accepted_by_mistake` — a client that proposes `na` takes the refusal for
        an acceptance. -/
namespace Dep2p.Multistream

open Lib Varint List Net

section Token

variable {S : Type} (m : S → Act UInt8 S) (e : TokenReader → S) (k : Except TokenErr Proto → S)

section

variable (hm : ∀ t, m (e t) = readNextToken e k t)
include hm

/-- The varint of `n` takes a reader to the body. The induction is on the bytes of the
varint; the reader has the value of the bits below. -/
theorem feed_length (n x s : Nat) (bs : List UInt8) (hx : x < 2 ^ s) (hs : s < 63)
    (hn : n * 2 ^ s < 2 ^ 63) (hmin : s = 0 ∨ 0 < n) (hpos : 0 < x + n * 2 ^ s)
    (hle : x + n * 2 ^ s ≤ 1024) :
    feed m (e (.length x s)) (putUvarint n ++ bs) = feed m (e (.body (x + n * 2 ^ s) [])) bs := by
  induction n using Nat.strongRecOn generalizing x s with
  | ind n ih =>
    rw [putUvarint]
    split
    · rename_i hlt
      have hread := readByte_last hx hs hlt hmin
      rw [singleton_append, feed, hm]
      simp only [readNextToken, TokenReader.feed, hread]
      rw [if_neg (not_lt.mpr hle), if_neg (pos_iff_ne_zero.mp hpos)]
      rfl
    · rename_i hge
      have hs' : s < 56 := shift_lt (not_lt.mp hge) hn
      have hread := readByte_more n hx hs'
      have hsplit := add_mul_split x s n
      rw [cons_append, feed, hm]
      simp only [readNextToken, TokenReader.feed, hread, Sum.elim_inl]
      rw [ih (n / 128) (by omega) _ _ (add_mul_lt hx) (by omega), hsplit]
      · have hdiv : n / 128 * 2 ^ (s + 7) ≤ n * 2 ^ s := by omega
        omega
      · exact .inr (by omega)
      · rw [hsplit]
        exact hpos
      · rw [hsplit]
        exact hle

theorem feed_body (bs buf : List UInt8) (hbs : bs ≠ []) :
    feed m (e (.body bs.length buf)) bs = some (k (TokenReader.finish (buf ++ bs))) := by
  induction bs generalizing buf with
  | nil => exact absurd rfl hbs
  | cons b bs ih =>
    rw [feed, hm]
    cases bs with
    | nil => rfl
    | cons c bs =>
      have := ih (buf ++ [b]) (cons_ne_nil c bs)
      rw [append_assoc] at this
      exact this

/-- A reader that gets a token reads it and nothing else. -/
theorem feed_token {mes : Proto} (hlen : mes.length ≤ 1023) :
    feed m (e .start) (delimWrite mes) = some (k (.ok mes)) := by
  have hlast : TokenReader.finish (mes ++ [newline]) = .ok mes := by
    unfold TokenReader.finish
    rw [if_pos (by simp), dropLast_concat]
  have hbody := feed_body m e k hm (mes ++ [newline]) [] (by simp)
  rw [nil_append, hlast, length_append] at hbody
  have hlength := feed_length m e k hm (mes.length + 1) 0 0 (mes ++ [newline]) (by norm_num) (by norm_num)
    (by norm_num; omega) (.inl rfl) (by omega) (by omega)
  rw [zero_add, pow_zero, mul_one] at hlength
  exact hlength.trans hbody

end

end Token

/-! ## The two ends -/

variable {H : Type} (handlers : List (Handler H)) (protos : List Proto) (xs ys : List UInt8)

abbrev Negotiation (H : Type) := Net UInt8 Client (Server H)

/-- The client writes `xs` after it has returned, the server `ys`. -/
abbrev NetStep : Negotiation H → Negotiation H → Prop :=
  Net.Step (selectOneOf protos xs) (negotiate handlers ys)

def initial : Negotiation H := ⟨⟨.start, [], []⟩, ⟨.sendHeader, [], []⟩⟩

/-- Both ends returned `p`; what they wrote since is still to be read. -/
def agreed (p : Proto) (h : H) : Negotiation H :=
  ⟨⟨.done (.ok p), [], ys⟩, ⟨.done (.ok (p, h)), [], xs⟩⟩

variable (res : Except SelectErr Proto)

/-- The client returned, and the server waits for another proposal. -/
def alone : Negotiation H := ⟨⟨.done res, [], []⟩, ⟨.loop .start, [], []⟩⟩

/-- What is to come of a negotiation, however it is interleaved: both ends return the
first protocol with a handler and leave what the other end writes later alone, or the
client is told that no protocol is supported. -/
def Agrees : Prop :=
  match protos.find? fun p => (findHandler handlers p).isSome with
  | some p => ∃ h, findHandler handlers p = some h ∧
      ∀ xs ys, Settles (NetStep handlers protos xs ys) initial (agreed xs ys p h)
  | none => Settles (NetStep handlers protos [] []) initial (alone (.error (.errNotSupported protos)))

variable {handlers protos xs ys}

theorem diamond_netStep : Diamond (NetStep handlers protos xs ys) := diamond

theorem final_agreed (p : Proto) (h : H) :
    Final (NetStep handlers protos xs ys) (agreed xs ys p h) := by
  rintro y ⟨kind, hy⟩
  cases kind <;> cases hy

theorem final_alone : Final (NetStep handlers protos xs ys) (alone res : Negotiation H) := by
  rintro y ⟨kind, hy⟩
  cases kind <;> cases hy

/-! ## One proposal -/

variable {p : Proto} {ps : List Proto}

/-- The server reads a proposal. -/
theorem feed_proposal (hlen : p.length ≤ 1022) :
    feed (negotiate handlers ys) (.loop .start) (delimWrite p) = some (gotProposal handlers (.ok p)) :=
  feed_token _ .loop (gotProposal handlers) (fun _ => rfl) (by omega)

/-- The server has no handler for a proposal. -/
theorem leads_no (hlen : p.length ≤ 1022) (hp : findHandler handlers p = none) (c : Client)
    (input : List UInt8) :
    Leads (NetStep handlers protos xs ys) ⟨⟨c, [], input⟩, .loop .start, [], delimWrite p⟩
      ⟨⟨c, [], input ++ delimWrite na⟩, .loop .start, [], []⟩ := by
  have hfeed : feed (negotiate handlers ys) (.loop .start) (delimWrite p) = some .sendNa := by
    rw [feed_proposal hlen]
    simp [gotProposal, hp]
  have hread := leads_feed_right (m := selectOneOf protos xs) hfeed [] [] ⟨c, [], input⟩
  rw [append_nil] at hread
  exact hread.trans (leads_say_right _ (negotiate handlers ys) .sendNa rfl rfl [] _)

/-- The server has a handler for a proposal, and returns it. -/
theorem leads_yes {h : H} (hlen : p.length ≤ 1022) (hp : findHandler handlers p = some h)
    (c : Client) (input : List UInt8) :
    Leads (NetStep handlers protos xs ys) ⟨⟨c, [], input⟩, .loop .start, [], delimWrite p⟩
      ⟨⟨c, [], input ++ delimWrite p ++ ys⟩, .done (.ok (p, h)), [], []⟩ := by
  have hfeed : feed (negotiate handlers ys) (.loop .start) (delimWrite p) = some (.sendTok p h) := by
    rw [feed_proposal hlen]
    simp [gotProposal, hp]
  have hread := leads_feed_right (m := selectOneOf protos xs) hfeed [] [] ⟨c, [], input⟩
  rw [append_nil] at hread
  refine hread.trans ((leads_say_right _ (negotiate handlers ys) (.sendTok p h) rfl rfl [] _).trans ?_)
  exact (leads_swap (leads_write (negotiate handlers ys) _ (.returned (.ok (p, h))) rfl [] [] _)).trans
    (leads_send_right _ _ _ _)

/-- The client returns, and writes what it wants to. -/
theorem leads_return (input : List UInt8) (v : Side UInt8 (Server H)) :
    Leads (NetStep handlers protos xs ys) ⟨⟨.returned res, [], input⟩, v⟩
      ⟨⟨.done res, [], input⟩, { v with input := v.input ++ xs }⟩ :=
  (leads_write (selectOneOf protos xs) _ (.returned res) rfl [] input v).trans (leads_send _ _ _ _ _ _)

/-! ## What an answer leads to -/

theorem selected_self :
    selected protos p ps (readProto p (.ok p)) = .returned (.ok p) := by
  simp [readProto, selected]

theorem length_na : na.length ≤ 1022 := by decide

variable (handlers protos xs ys) in
/-- The client has proposed `p`, with `ps` to follow, and acts on the answer. -/
def Awaits (c : Client) (p : Proto) (ps : List Proto) : Prop :=
  ∀ tok : Proto, tok.length ≤ 1022 → ∀ rest v,
    Leads (NetStep (H := H) handlers protos xs ys) ⟨⟨c, [], delimWrite tok ++ rest⟩, v⟩
      ⟨⟨selected protos p ps (readProto p (.ok tok)), [], rest⟩, v⟩

variable (handlers protos xs ys) in
/-- The negotiation comes to the proposal of `p`. -/
def Proposes (p : Proto) (ps : List Proto) : Prop :=
  ∃ c, Awaits handlers protos xs ys c p ps ∧
    Leads (NetStep handlers protos xs ys) initial ⟨⟨c, [], []⟩, ⟨.loop .start, [], delimWrite p⟩⟩

theorem awaits_reply :
    Awaits handlers protos xs ys (.reply p ps .start) p ps := by
  intro tok hlen rest v
  apply leads_feed
  exact feed_token (selectOneOf protos xs) (.reply p ps) (fun r => selected protos p ps (readProto p r))
    (fun _ => rfl) (by omega)

/-- The first answer is acted upon when the goroutine that writes has finished. -/
theorem awaits_firstReply :
    Awaits handlers (p :: ps) xs ys (.firstReply none .start) p ps := by
  intro tok hlen rest v
  have hfeed : feed (selectOneOf (p :: ps) xs) (.firstReply none .start) (delimWrite tok) =
      some (.join none (readProto p (.ok tok))) :=
    feed_token (selectOneOf (p :: ps) xs) (.firstReply none) (fun r => .join none (readProto p r))
      (fun _ => rfl) (by omega)
  refine (leads_feed hfeed [] rest v).trans ?_
  exact leads_flush (selectOneOf (p :: ps) xs) _ (.join none (readProto p (.ok tok))) rfl rest v

/-- Both ends send their headers, the client with its first proposal. -/
theorem proposes_first (ps : List Proto) :
    Proposes handlers (p :: ps) xs ys p ps := by
  refine ⟨.firstReply none .start, awaits_firstReply, ?_⟩
  have hserver : feed (negotiate handlers ys) (.header .start) (delimWrite protocolID) =
      some (.loop .start) :=
    feed_token (negotiate handlers ys) .header gotHeader (fun _ => rfl) (by decide)
  have hclient : feed (selectOneOf (p :: ps) xs) (.header .start) (delimWrite protocolID) =
      some (.firstReply none .start) :=
    feed_token (selectOneOf (p :: ps) xs) .header
      (fun r => .firstReply (readMultistreamHeader r) .start) (fun _ => rfl) (by decide)
  have hwrite := leads_write (selectOneOf (p :: ps) xs) (negotiate handlers ys) .start rfl [] []
    ⟨.sendHeader, [], []⟩
  have hsend := leads_send (selectOneOf (p :: ps) xs) (negotiate handlers ys) (.header .start)
    (delimWrite protocolID ++ delimWrite p) [] ⟨.sendHeader, [], []⟩
  have hsay := leads_say_right (selectOneOf (p :: ps) xs) (negotiate handlers ys) .sendHeader rfl rfl
    (delimWrite protocolID ++ delimWrite p) ⟨.header .start, [], []⟩
  have hread := leads_feed_right (m := selectOneOf (p :: ps) xs) hserver [] (delimWrite p)
    ⟨.header .start, [], delimWrite protocolID⟩
  have hheader : Leads (Net.Step (selectOneOf (p :: ps) xs) (negotiate handlers ys)) _ _ :=
    leads_feed hclient [] [] ⟨.loop .start, [], delimWrite p⟩
  rw [append_nil] at hheader
  exact hwrite.trans (hsend.trans (hsay.trans (hread.trans hheader)))

section Answers

variable {p : Proto} {ps : List Proto}

/-- A proposal without a handler is refused, and the client goes on. -/
theorem Proposes.refused (hprop : Proposes handlers protos xs ys p ps) (hlen : p.length ≤ 1022)
    (hp : findHandler handlers p = none) (hna : p ≠ na) :
    Leads (NetStep handlers protos xs ys) initial
      ⟨⟨selectProtos protos ps, [], []⟩, .loop .start, [], []⟩ := by
  obtain ⟨c, hawait, hlead⟩ := hprop
  have hread := hawait na length_na [] ⟨.loop .start, [], []⟩
  simp only [readProto, if_neg hna.symm, append_nil] at hread
  exact hlead.trans ((leads_no hlen hp c []).trans hread)

/-- The next protocol is proposed. -/
theorem Proposes.next {q : Proto} {qs : List Proto} (hprop : Proposes handlers protos xs ys p (q :: qs))
    (hlen : p.length ≤ 1022) (hp : findHandler handlers p = none) (hna : p ≠ na) :
    Proposes handlers protos xs ys q qs := by
  refine ⟨.reply q qs .start, awaits_reply, (hprop.refused hlen hp hna).trans ?_⟩
  exact leads_say (selectOneOf protos xs) _ (.send q qs) rfl rfl [] _

/-- A proposal with a handler is accepted, and both ends return. -/
theorem Proposes.accepted (hprop : Proposes handlers protos xs ys p ps) (hlen : p.length ≤ 1022) {h : H}
    (hp : findHandler handlers p = some h) :
    Leads (NetStep handlers protos xs ys) initial (agreed xs ys p h) := by
  obtain ⟨c, hawait, hlead⟩ := hprop
  have hread := hawait p hlen ys ⟨.done (.ok (p, h)), [], []⟩
  rw [selected_self] at hread
  exact hlead.trans ((leads_yes hlen hp c []).trans (hread.trans (leads_return _ _ _)))

/-- The refusal of `na` is taken for its acceptance. -/
theorem Proposes.mistaken (hprop : Proposes handlers protos [] ys na ps)
    (hp : findHandler handlers na = none) :
    Leads (NetStep handlers protos [] ys) initial (alone (.ok na)) := by
  obtain ⟨c, hawait, hlead⟩ := hprop
  have hread := hawait na length_na [] ⟨.loop .start, [], []⟩
  rw [append_nil] at hread
  exact hlead.trans ((leads_no length_na hp c []).trans (hread.trans (leads_return _ _ _)))

end Answers

/-- The protocols are proposed in their order, as long as they are refused. -/
theorem proposes_of_append {pre : List Proto} (hprotos : protos = pre ++ p :: ps)
    (hlen : ∀ q ∈ protos, q.length ≤ 1022) (hpre : ∀ q ∈ pre, findHandler handlers q = none)
    (hna : na ∉ pre) : Proposes handlers protos xs ys p ps := by
  induction pre using reverseRecOn generalizing p ps with
  | nil =>
    subst hprotos
    exact proposes_first ps
  | append_singleton pre q ih =>
    rw [append_assoc] at hprotos
    rw [mem_append, mem_singleton, not_or] at hna
    have hq : q ∈ protos := by
      rw [hprotos]
      exact mem_append_right _ mem_cons_self
    have hprop := ih hprotos (fun r hr => hpre r (mem_append_left _ hr)) hna.1
    exact hprop.next (hlen q hq) (hpre q (mem_append_right _ mem_cons_self)) (symm hna.2)

/-! ## Agreement -/

/-- The protocols that are proposed in vain before one is accepted. -/
def refusals (handlers : List (Handler H)) (protos : List Proto) : List Proto :=
  protos.takeWhile fun p => (findHandler handlers p).isNone

theorem agrees_of_notMem (hne : protos ≠ []) (hlen : ∀ p ∈ protos, p.length ≤ 1022)
    (hna : na ∉ refusals handlers protos) : Agrees handlers protos := by
  unfold Agrees
  cases hfind : protos.find? fun p => (findHandler handlers p).isSome with
  | some p =>
    obtain ⟨hp, pre, ps, hprotos, hpre⟩ := find?_eq_some_iff_append.mp hfind
    obtain ⟨h, hh⟩ := Option.isSome_iff_exists.mp hp
    have hnone : ∀ q ∈ pre, findHandler handlers q = none := by
      intro q hq
      simpa using hpre q hq
    refine ⟨h, hh, fun xs ys => ?_⟩
    have hnotMem : na ∉ pre := by
      intro hmem
      apply hna
      rw [refusals, hprotos, takeWhile_append_of_pos]
      · exact mem_append_left _ hmem
      · intro q hq
        rw [hnone q hq]
        rfl
    have hmem : p ∈ protos := by
      rw [hprotos]
      exact mem_append_right _ mem_cons_self
    have hprop : Proposes handlers protos xs ys p ps :=
      proposes_of_append hprotos hlen hnone hnotMem
    exact diamond_netStep.settles (hprop.accepted (hlen p hmem) hh) (final_agreed p h)
  | none =>
    have hnone : ∀ q ∈ protos, findHandler handlers q = none := by
      intro q hq
      simpa using find?_eq_none.mp hfind q hq
    have hall : refusals handlers protos = protos := by
      apply takeWhile_eq_self_iff.mpr
      intro q hq
      rw [hnone q hq]
      rfl
    rw [hall] at hna
    obtain ⟨pre, p, hprotos⟩ := (eq_nil_or_concat protos).resolve_left hne
    rw [concat_eq_append] at hprotos
    rw [hprotos, mem_append, mem_singleton, not_or] at hna
    have hmem : p ∈ protos := by
      rw [hprotos]
      exact mem_append_right _ mem_cons_self
    have hprop : Proposes handlers protos [] [] p [] := by
      apply proposes_of_append hprotos hlen _ hna.1
      intro q hq
      apply hnone
      rw [hprotos]
      exact mem_append_left _ hq
    apply diamond_netStep.settles _ (final_alone _)
    have hrefused := hprop.refused (hlen p hmem) (hnone p hmem) (symm hna.2)
    exact hrefused.trans (leads_return _ _ _)

theorem not_agrees_of_mem (hlen : ∀ p ∈ protos, p.length ≤ 1022)
    (hna : na ∈ refusals handlers protos) : ¬ Agrees handlers protos := by
  obtain ⟨pre, ps, hsplit, hnotMem⟩ := eq_append_cons_of_mem hna
  have hnone : ∀ q ∈ refusals handlers protos, findHandler handlers q = none := by
    intro q hq
    simpa using mem_takeWhile_imp hq
  obtain ⟨rest, hrest⟩ : ∃ rest, refusals handlers protos ++ rest = protos :=
    ⟨_, takeWhile_append_dropWhile⟩
  have hprotos : protos = pre ++ na :: (ps ++ rest) := by
    rw [← hrest, hsplit, append_assoc, cons_append]
  have hprop : Proposes handlers protos [] [] na (ps ++ rest) := by
    apply proposes_of_append hprotos hlen _ hnotMem
    intro q hq
    apply hnone
    rw [hsplit]
    exact mem_append_left _ hq
  have hlead := hprop.mistaken (hnone na hna)
  intro hagrees
  unfold Agrees at hagrees
  split at hagrees
  · obtain ⟨h, -, hsettles⟩ := hagrees
    have := (hsettles [] []).unique hlead (final_alone _)
    cases this
  · have := hagrees.unique hlead (final_alone _)
    cases this

/-- **Agreement.** However the bytes are interleaved and cut, the negotiation ends as
it should exactly when `na` is not among the protocols that the client proposes in
vain. -/
theorem negotiation_agrees_iff (handlers : List (Handler H)) {protos : List Proto} (hne : protos ≠ [])
    (hlen : ∀ p ∈ protos, p.length ≤ 1022) :
    Agrees handlers protos ↔ na ∉ refusals handlers protos :=
  ⟨fun h hna => not_agrees_of_mem hlen hna h, agrees_of_notMem hne hlen⟩

/-- A server with the one protocol `/a`. -/
def onlyA : List (Handler Unit) := [⟨fun p => p = [47, 97], ()⟩]

/-- The client proposes `/b` and `/a`. -/
theorem negotiation_agrees_onlyA : Agrees onlyA [[47, 98], [47, 97]] :=
  (negotiation_agrees_iff onlyA (by decide) (by decide)).mpr (by decide)

/-- A client whose only protocol is called `na` returns it, and the server, which has
no handler for it, waits for another proposal. -/
theorem na_accepted_by_mistake :
    findHandler onlyA na = none ∧ ¬ Agrees onlyA [na] ∧
      Settles (NetStep onlyA [na] [] []) initial (alone (.ok na)) := by
  have hprop : Proposes onlyA [na] [] [] na [] := proposes_first []
  refine ⟨rfl, not_agrees_of_mem (by decide) (by decide), ?_⟩
  exact diamond_netStep.settles (hprop.mistaken rfl) (final_alone _)

end Dep2p.Multistream
