import Dep2p.Peerstore.Basic
import Mathlib.Data.List.Perm.Basic
import Mathlib.Algebra.GroupWithZero.Nat
import Mathlib.Order.Nat

/- Resolving the addresses of a peer before a dial: the chain of resolvers, and the
   recursion over `/dnsaddr` names.

   A stage of the chain ends at the first address its resolver takes where `outputLimit`
   addresses are gathered, and drops what follows. So the chain keeps the addresses that no
   resolver takes, and finds at most `outputLimit`, where all that comes up to an address to be
   resolved fits in the limit (`Fits`). The recursion keeps to its two limits whatever the
   backend answers. -/
namespace Dep2p.Swarm

open List

/-! ## The chain of resolvers -/

section Chain

variable {A ε : Type}

structure Resolver (A ε : Type) where
  canResolve : A → Bool
  resolve : A → Nat → Except ε (List A)

/-- No resolver takes the address. -/
def plain (resolvers : List (Resolver A ε)) (a : A) : Bool := resolvers.all (!·.canResolve a)

/-- Up to each address that is not plain, the sizes add up to `L` at most. -/
def Fits (size : A → Nat) (p : A → Bool) : Nat → List A → Prop
  | _, [] => True
  | L, a :: addrs => (p a = false → size a ≤ L) ∧ Fits size p (L - size a) addrs

/-- Plain addresses stay, and each other one has become a list that is no larger. -/
inductive Expands (size : A → Nat) (p : A → Bool) : List A → List A → Prop where
  | nil : Expands size p [] []
  | cons {a addrs out} (part : List A) : (p a = true → part = [a]) →
      (part.map size).sum ≤ size a → Expands size p addrs out →
      Expands size p (a :: addrs) (part ++ out)

section

variable {size : A → Nat} {p : A → Bool} {L L' : Nat} {addrs out : List A}

theorem Fits.mono (h : Fits size p L addrs) (hL : L ≤ L') : Fits size p L' addrs := by
  induction addrs generalizing L L' with
  | nil => trivial
  | cons a addrs ih => exact ⟨fun hp => (h.1 hp).trans hL, ih h.2 (Nat.sub_le_sub_right hL _)⟩

theorem Expands.refl (addrs : List A) : Expands size p addrs addrs := by
  induction addrs with
  | nil => exact .nil
  | cons a addrs ih => exact .cons [a] (fun _ => rfl) (by simp) ih

theorem Expands.split {as bs : List A} (h : Expands size p (as ++ bs) out) :
    ∃ c d, out = c ++ d ∧ Expands size p as c ∧ Expands size p bs d := by
  induction as generalizing out with
  | nil => exact ⟨[], out, rfl, .nil, h⟩
  | cons a as ih =>
    cases h with
    | cons part hp hsize h =>
      obtain ⟨c, d, rfl, hc, hd⟩ := ih h
      exact ⟨part ++ c, d, (append_assoc ..).symm, .cons part hp hsize hc, hd⟩

theorem Expands.sum_le (h : Expands size p addrs out) :
    (out.map size).sum ≤ (addrs.map size).sum := by
  induction h with
  | nil => exact le_refl 0
  | cons part hp hsize _ ih =>
    simp only [map_append, sum_append, map_cons, sum_cons]
    exact Nat.add_le_add hsize ih

theorem Expands.trans {out' : List A} (h : Expands size p addrs out)
    (h' : Expands size p out out') : Expands size p addrs out' := by
  induction h generalizing out' with
  | nil => exact h'
  | cons part hp hsize _ ih =>
    obtain ⟨c, d, rfl, hc, hd⟩ := h'.split
    refine .cons c (fun hpa => ?_) (hc.sum_le.trans hsize) (ih hd)
    -- a plain address stays in both steps
    rw [hp hpa] at hc
    cases hc with
    | cons part' hp' _ hnil =>
      cases hnil
      rw [hp' hpa, append_nil]

theorem Fits.append {part : List A} {n : Nat} (hsize : (part.map size).sum ≤ n) (hn : n ≤ L)
    (h : Fits size p (L - n) out) : Fits size p L (part ++ out) := by
  induction part generalizing L n with
  | nil => exact h.mono (Nat.sub_le L n)
  | cons b part ih =>
    simp only [map_cons, sum_cons] at hsize
    refine ⟨fun _ => by omega, ih (n := n - size b) (by omega) (by omega) (h.mono (by omega))⟩

theorem Expands.fits (h : Expands size p addrs out) (hfits : Fits size p L addrs) :
    Fits size p L out := by
  induction h generalizing L with
  | nil => trivial
  | @cons a _ _ part hp hsize _ ih =>
    cases hpa : p a with
    | true =>
      rw [hp hpa]
      exact ⟨hfits.1, ih hfits.2⟩
    | false => exact .append hsize (hfits.1 hpa) (ih hfits.2)

variable {r : Resolver A ε}

end

end Chain

/-! ## `/dnsaddr` names -/

section DnsAddr

open Multiaddr

def startsWithDNSADDR (m : Multiaddr) : Bool := m.head?.any (·.code = 56)

/-- `peer.IDFromP2PAddr`; `none` is `ErrInvalidAddr`, its only error. -/
def idFromP2PAddr (m : Multiaddr) : Option Peerstore.PeerID :=
  (m.getLast?.filter (·.code = P_P2P)).map (·.rawValue)

/-- What a call gives, with the depth of each query to the backend below it and the
output limit of each nested call. -/
structure Resolution (ε : Type) where
  addrs : Except ε (List Multiaddr)
  queries : List Nat := []
  limits : List Int := []

variable {ε : Type}

/-- The loop over `toResolve`. -/
def resolveNested (call : Multiaddr → Int → Resolution ε) (outputLimit : Int) :
    List Multiaddr → List Multiaddr → List Multiaddr × List Nat × List Int
  | [], resolved => (resolved, [], [])
  | addr :: toResolve, resolved =>
    let nextOutputLimit : Int := outputLimit - resolved.length - (toResolve.length + 1) + 1
    let answer := call addr nextOutputLimit
    let out := resolveNested call outputLimit toResolve
      (match answer.addrs with | .ok as => resolved ++ as | .error _ => resolved)
    (out.1, answer.queries ++ out.2.1, nextOutputLimit :: (answer.limits ++ out.2.2))

variable (resolve : Multiaddr → Except ε (List Multiaddr)) (expectedPeerID : Peerstore.PeerID)

/-- A recursion limit below zero acts as zero does. -/
def resolveDNSAddr :
    Nat → Multiaddr → Int → Resolution ε
  | 0, maddr, outputLimit => ⟨.ok (if outputLimit ≤ 0 then [] else [maddr]), [], []⟩
  | recursionLimit + 1, maddr, outputLimit =>
    if outputLimit ≤ 0 then ⟨.ok [], [], []⟩ else
    match resolve maddr with
    | .error err => ⟨.error err, [1], []⟩
    | .ok found =>
      let addrs := found.take outputLimit.toNat
      let out := resolveNested (resolveDNSAddr recursionLimit) outputLimit
        (addrs.filter startsWithDNSADDR) (addrs.filter (!startsWithDNSADDR ·))
      let resolved := out.1.take outputLimit.toNat
      ⟨.ok (if expectedPeerID = [] then resolved
        else resolved.filter fun a => (idFromP2PAddr a).all (· = expectedPeerID)),
        1 :: out.2.1.map (· + 1), out.2.2⟩

/-- A call with the recursion limit `r` and the output limit `k` keeps to both. -/
structure Resolution.Within (r : Nat) (k : Int) (out : Resolution ε) : Prop where
  length : ∀ as, out.addrs = .ok as → as.length ≤ k.toNat
  depth : ∀ d ∈ out.queries, d ≤ r
  limit : ∀ l ∈ out.limits, 1 ≤ l ∧ l ≤ k

/-- What is resolved and what is left to resolve fit in `k` together, each name left
counting as one address; so the limit of a nested call is positive. -/
theorem nested_within {r : Nat} {call : Multiaddr → Int → Resolution ε}
    (hcall : ∀ a l, (call a l).Within r l) {k : Int} (todo resolved : List Multiaddr)
    (h : (resolved.length + todo.length : Int) ≤ k) :
    (∀ d ∈ (resolveNested call k todo resolved).2.1, d ≤ r) ∧
      ∀ l ∈ (resolveNested call k todo resolved).2.2, 1 ≤ l ∧ l ≤ k := by
  induction todo generalizing resolved with
  | nil => simp [resolveNested]
  | cons a todo ih =>
    simp only [length_cons] at h
    generalize hl : k - resolved.length - (todo.length + 1) + 1 = l
    have hw := hcall a l
    obtain ⟨hd, hlim⟩ := ih (match (call a l).addrs with
      | .ok as => resolved ++ as | .error _ => resolved) (by
        cases ha : (call a l).addrs with
        | error e => simp only; omega
        | ok as =>
          have := hw.length as ha
          simp only [length_append]
          omega)
    simp only [resolveNested, hl, mem_append, mem_cons]
    constructor
    · rintro d (hm | hm)
      exacts [hw.depth d hm, hd d hm]
    · rintro l' (rfl | hm | hm)
      · omega
      · have := hw.limit l' hm
        omega
      · exact hlim l' hm

theorem resolveDNSAddr_within (r : Nat) (m : Multiaddr) (k : Int) :
    (resolveDNSAddr resolve expectedPeerID r m k).Within r k := by
  induction r generalizing m k with
  | zero =>
    refine ⟨?_, by simp [resolveDNSAddr], by simp [resolveDNSAddr]⟩
    simp only [resolveDNSAddr]
    split <;> simp; omega
  | succ r ih =>
    unfold resolveDNSAddr
    split
    · exact ⟨by simp, by simp, by simp⟩
    cases resolve m with
    | error e => exact ⟨by simp, by simp, by simp⟩
    | ok found =>
      obtain ⟨hd, hl⟩ := nested_within ih
        ((found.take k.toNat).filter startsWithDNSADDR)
        ((found.take k.toNat).filter (!startsWithDNSADDR ·)) (k := k) (by
          have := length_eq_length_filter_add (l := found.take k.toNat) startsWithDNSADDR
          have := length_take_le k.toNat found
          omega)
      refine ⟨?_, ?_, hl⟩
      · simp only [Except.ok.injEq, forall_eq']
        split
        · exact length_take_le ..
        · exact Nat.le_trans (length_filter_le ..) (length_take_le ..)
      · simpa using hd

theorem resolveDNSAddr_bounded (r : Nat) (m : Multiaddr) (k : Int) :
    let out := resolveDNSAddr resolve expectedPeerID r m k
    out.Within r k ∧ (1 ≤ r → expectedPeerID ≠ [] → ∀ as, out.addrs = .ok as →
      ∀ a ∈ as, ∀ id, idFromP2PAddr a = some id → id = expectedPeerID) := by
  refine ⟨resolveDNSAddr_within resolve expectedPeerID r m k, fun hr hp as h a ha id hid => ?_⟩
  obtain ⟨r, rfl⟩ := Nat.exists_eq_add_of_le' hr
  unfold resolveDNSAddr at h
  split at h
  · simp_all
  split at h
  · simp at h
  · simp only [Except.ok.injEq] at h
    have := of_mem_filter (h ▸ ha)
    simpa [hid] using this

/-- A name that answers with itself and with an address of another peer. -/
theorem resolveDNSAddr_cycle :
    let name : Multiaddr := [⟨56, []⟩]
    let out := resolveDNSAddr (ε := Unit) (fun m => .ok [m, [⟨P_P2P, [2]⟩]]) [1] 2 name 3
    out.limits = [2, 1] ∧
      ∀ as, out.addrs = .ok as → ∀ a ∈ as, ∀ id, idFromP2PAddr a = some id → id = [1] :=
  ⟨by decide, (resolveDNSAddr_bounded _ [1] 2 _ 3).2 (by decide) (by decide)⟩

end DnsAddr

end Dep2p.Swarm
