import Dep2p.Multiaddr.Encapsulate

/- Patterns of addresses (`fmt/patterns.go`).

   A pattern stands for a set of protocol sequences: `And` for concatenation, `Or` for union.
   There is no repetition, so the set is finite and `words` lists it. The matcher hands on one
   remainder: an `Or` commits to the first alternative that reads a beginning of what is left,
   and an `And` asks for at least as many protocols as it has arguments.

   What is proved:
     `partialMatch_sound`, `partialMatch_complete` — what one partial match reads, for every
       pattern, and when it reads every word.
     `matches_language` — `Matches` accepts words of the pattern only, and all of them if the
       choices of the pattern are determined, as they are in the patterns of the package. -/
namespace Dep2p.Multiaddr.Wire

open Lib List

variable {ε : Type}

inductive Pattern where
  | base (code : Int)
  | and (args : List Pattern)
  | or (args : List Pattern)

namespace Pattern

mutual

/-- What is left of the protocols, if the pattern matches a beginning of them. -/
def partialMatch : Pattern → List (Protocol ε) → Option (List (Protocol ε))
  | .base _, [] => none
  | .base code, pc :: rem => if (pc.code : Int) = code then some rem else none
  | .or args, pcs => orLoop args pcs
  | .and args, pcs => if pcs.length < args.length then none else andLoop args pcs

def orLoop : List Pattern → List (Protocol ε) → Option (List (Protocol ε))
  | [], _ => none
  | a :: args, pcs =>
    match a.partialMatch pcs with
    | some rem => some rem
    | none => orLoop args pcs

def andLoop : List Pattern → List (Protocol ε) → Option (List (Protocol ε))
  | [], pcs => some pcs
  | a :: args, pcs =>
    match a.partialMatch pcs with
    | none => none
    | some rem => andLoop args rem

end

/-- `Matches`; that of `Base` looks at `pcs[0]`. -/
def matchesAddr (ps : Protocols ε) (p : Pattern) (a : Addr ε) : Run ε Bool := do
  let pcs ← protocols ps a
  match p, pcs with
  | .base _, [] => .error .panicked
  | .base code, pc :: rem => .ok (decide ((pc.code : Int) = code) && rem.isEmpty)
  | p, pcs =>
    match p.partialMatch pcs with
    | some rem => .ok rem.isEmpty
    | none => .ok false

/-! ## The language -/

mutual

/-- The protocol sequences that belong to the pattern. -/
def words : Pattern → List (List Int)
  | .base code => [[code]]
  | .or args => wordsOr args
  | .and args => wordsAnd args

def wordsOr : List Pattern → List (List Int)
  | [] => []
  | a :: args => a.words ++ wordsOr args

def wordsAnd : List Pattern → List (List Int)
  | [] => [[]]
  | a :: args => a.words.flatMap fun u => (wordsAnd args).map (u ++ ·)

end

/-- No word begins another one. -/
def PrefixFree (ws : List (List Int)) : Prop := ∀ u ∈ ws, ∀ v ∈ ws, u <+: v → u = v

instance (ws : List (List Int)) : Decidable (PrefixFree ws) :=
  inferInstanceAs (Decidable (∀ u ∈ ws, ∀ v ∈ ws, u <+: v → u = v))

mutual

/-- Every choice is settled by what it reads, and every part of a sequence reads something. -/
def determined : Pattern → Bool
  | .base _ => true
  | .or args => decide (PrefixFree (wordsOr args)) && allDetermined args
  | .and args => args.all (fun a => [] ∉ a.words) && allDetermined args

def allDetermined : List Pattern → Bool
  | [] => true
  | a :: args => a.determined && allDetermined args

end

/-- The sequence of codes. -/
def codes (pcs : List (Protocol ε)) : List Int := pcs.map fun pc => (pc.code : Int)

variable {args : List Pattern} {w : List Int}

theorem mem_wordsAnd_cons {a : Pattern} :
    w ∈ wordsAnd (a :: args) ↔ ∃ u ∈ a.words, ∃ v ∈ wordsAnd args, u ++ v = w := by
  simp [wordsAnd]

/-! ## The matcher -/

mutual

/-- What was read is a word. -/
theorem partialMatch_sound (p : Pattern) (pcs rem : List (Protocol ε))
    (h : p.partialMatch pcs = some rem) : ∃ xs, pcs = xs ++ rem ∧ codes xs ∈ p.words := by
  match p with
  | .base code =>
    cases pcs with
    | nil => simp [partialMatch] at h
    | cons pc pcs =>
      simp only [partialMatch, Option.ite_none_right_eq_some, Option.some.injEq] at h
      obtain ⟨hcode, rfl⟩ := h
      exact ⟨[pc], rfl, by simp [codes, words, hcode]⟩
  | .or args =>
    exact orLoop_sound args pcs rem h
  | .and args =>
    simp only [partialMatch, Option.ite_none_left_eq_some] at h
    exact andLoop_sound args pcs rem h.2

theorem orLoop_sound (args : List Pattern) (pcs rem : List (Protocol ε))
    (h : orLoop args pcs = some rem) : ∃ xs, pcs = xs ++ rem ∧ codes xs ∈ wordsOr args := by
  match args with
  | [] => simp [orLoop] at h
  | a :: args =>
    rw [orLoop] at h
    simp only [wordsOr, List.mem_append]
    split at h
    · rename_i rem' hfirst
      cases h
      obtain ⟨xs, hxs, hmem⟩ := partialMatch_sound a pcs rem hfirst
      exact ⟨xs, hxs, Or.inl hmem⟩
    · obtain ⟨xs, hxs, hmem⟩ := orLoop_sound args pcs rem h
      exact ⟨xs, hxs, Or.inr hmem⟩

theorem andLoop_sound (args : List Pattern) (pcs rem : List (Protocol ε))
    (h : andLoop args pcs = some rem) : ∃ xs, pcs = xs ++ rem ∧ codes xs ∈ wordsAnd args := by
  match args with
  | [] =>
    simp only [andLoop, Option.some.injEq] at h
    exact ⟨[], h, by simp [codes, wordsAnd]⟩
  | a :: args =>
    rw [andLoop] at h
    split at h
    · cases h
    rename_i rest hfirst
    obtain ⟨xs, rfl, hx⟩ := partialMatch_sound a pcs rest hfirst
    obtain ⟨ys, rfl, hy⟩ := andLoop_sound args rest rem h
    refine ⟨xs ++ ys, by simp, mem_wordsAnd_cons.mpr ⟨_, hx, _, hy, ?_⟩⟩
    simp [codes]

end

theorem length_le_of_mem (hne : ∀ a ∈ args, [] ∉ a.words)
    (h : w ∈ wordsAnd args) : args.length ≤ w.length := by
  induction args generalizing w with
  | nil => exact Nat.zero_le _
  | cons a args ih =>
    obtain ⟨u, hu, v, hv, rfl⟩ := mem_wordsAnd_cons.mp h
    have hrest := ih (fun b hb => hne b (mem_cons_of_mem a hb)) hv
    have hpos : 0 < u.length := by
      apply length_pos_of_ne_nil
      rintro rfl
      exact hne a mem_cons_self hu
    rw [length_append, length_cons]
    omega

mutual

/-- A determined pattern reads every word, whatever follows. -/
theorem partialMatch_complete (p : Pattern) (hp : p.determined = true)
    (xs rem : List (Protocol ε)) (h : codes xs ∈ p.words) :
    p.partialMatch (xs ++ rem) = some rem := by
  match p with
  | .base code =>
    simp only [words, mem_singleton, codes, map_eq_singleton_iff] at h
    obtain ⟨pc, rfl, hcode⟩ := h
    simp [partialMatch, hcode]
  | .or args =>
    simp only [determined, Bool.and_eq_true, decide_eq_true_eq] at hp
    exact orLoop_complete args hp.2 hp.1 xs rem h
  | .and args =>
    simp only [determined, Bool.and_eq_true, all_eq_true, decide_eq_true_eq] at hp
    have hlen := length_le_of_mem hp.1 h
    simp only [codes, length_map] at hlen
    simp only [partialMatch]
    rw [if_neg (by rw [length_append]; omega)]
    exact andLoop_complete args hp.2 xs rem h

theorem orLoop_complete (args : List Pattern) (hargs : allDetermined args = true)
    (hfree : PrefixFree (wordsOr args)) (xs rem : List (Protocol ε))
    (h : codes xs ∈ wordsOr args) : orLoop args (xs ++ rem) = some rem := by
  match args with
  | [] => simp [wordsOr] at h
  | a :: args =>
    simp only [allDetermined, Bool.and_eq_true] at hargs
    simp only [wordsOr, List.mem_append] at h
    rw [orLoop]
    split
    · -- what the first alternative read begins the word, or the word begins it
      rename_i rem' hfirst
      obtain ⟨ys, hsplit, hy⟩ := partialMatch_sound a _ _ hfirst
      have hlen : xs.length = ys.length := by
        have hx : codes xs ∈ wordsOr (a :: args) := by simpa [wordsOr] using h
        have hy : codes ys ∈ wordsOr (a :: args) := by simp [wordsOr, hy]
        rcases prefix_or_prefix_of_prefix (prefix_append xs rem)
          (hsplit ▸ prefix_append ys rem') with hle | hle
        · simpa [codes] using congrArg List.length (hfree _ hx _ hy (hle.map _))
        · simpa [codes] using congrArg List.length (hfree _ hy _ hx (hle.map _)).symm
      rw [(append_inj hsplit hlen).2]
    · rename_i hfirst
      have hrest : codes xs ∈ wordsOr args := by
        refine h.resolve_left fun hmem => ?_
        rw [partialMatch_complete a hargs.1 xs rem hmem] at hfirst
        cases hfirst
      refine orLoop_complete args hargs.2 (fun u hu v hv => ?_) xs rem hrest
      exact hfree u (mem_append_right _ hu) v (mem_append_right _ hv)

theorem andLoop_complete (args : List Pattern) (hargs : allDetermined args = true)
    (xs rem : List (Protocol ε)) (h : codes xs ∈ wordsAnd args) :
    andLoop args (xs ++ rem) = some rem := by
  match args with
  | [] =>
    simp only [wordsAnd, mem_singleton, codes, map_eq_nil_iff] at h
    rw [h]
    rfl
  | a :: args =>
    simp only [allDetermined, Bool.and_eq_true] at hargs
    obtain ⟨u, hu, v, hv, huv⟩ := mem_wordsAnd_cons.mp h
    obtain ⟨ys, zs, rfl, rfl, rfl⟩ := map_eq_append_iff.mp huv.symm
    rw [andLoop, append_assoc, partialMatch_complete a hargs.1 ys _ hu]
    exact andLoop_complete args hargs.2 zs rem hv

end

/-! ## The patterns of the package -/

def DNS4 : Pattern := .base 54
def DNS6 : Pattern := .base 55
def DNS : Pattern := .or [.base 53, .base 56, DNS4, DNS6]
def IP : Pattern := .or [.base 4, .base 41]
def TCP : Pattern := .or [.and [DNS, .base 6], .and [IP, .base 6]]
def UDP : Pattern := .or [.and [DNS, .base 273], .and [IP, .base 273]]
def UTP : Pattern := .and [UDP, .base 302]
def QUIC : Pattern := .and [UDP, .base 460]
def Unreliable : Pattern := .or [UDP]
def Reliable : Pattern := .or [TCP, UTP, QUIC]
def P2P : Pattern := .and [Reliable, .base 421]
def HTTP : Pattern := .or [.and [TCP, .base 480], .and [IP, .base 480], .and [DNS, .base 480]]
def HTTPS : Pattern := .or [.and [TCP, .base 443], .and [IP, .base 443], .and [DNS, .base 443]]
def WebRTCDirect : Pattern := .or [.and [HTTP, .base 276], .and [HTTPS, .base 276]]

def patterns : List Pattern :=
  [DNS4, DNS6, DNS, IP, TCP, UDP, UTP, QUIC, Unreliable, Reliable, P2P, HTTP, HTTPS, WebRTCDirect]

theorem determined_of_mem {p : Pattern} (h : p ∈ patterns) : p.determined = true := by
  have hall : patterns.all determined = true := by decide +kernel
  exact all_eq_true.mp hall p h

/-- `Matches` accepts words only. It accepts every word of a pattern whose choices are
determined, and those of the package are. -/
theorem matches_language (ps : Protocols ε) (p : Pattern) (a : Addr ε) (ha : a.Valid ps) :
    ∃ pcs b, protocols ps a = .ok pcs ∧ p.matchesAddr ps a = .ok b ∧
      (b = true → codes pcs ∈ p.words) ∧
      (p.determined = true ∨ p ∈ patterns → (b = true ↔ codes pcs ∈ p.words)) := by
  obtain ⟨is, his, -, hbytes, -, hcomp⟩ := ha.items
  have hpcs : protocols ps a = .ok (is.map Item.protocol) := by
    cases a with
    | multiaddr bytes => rw [show bytes = concat is from hbytes, protocols_concat]
    | component c =>
      obtain ⟨i, rfl, rfl⟩ := hcomp c rfl
      rfl
  generalize hgen : is.map Item.protocol = pcs at hpcs
  have hne : pcs ≠ [] := by
    rw [← hgen]
    simpa using his
  -- `Base` has a method of its own, which agrees with a partial match
  have hrun : ∃ b, p.matchesAddr ps a = .ok b ∧ (b = true ↔ p.partialMatch pcs = some []) := by
    unfold matchesAddr
    rw [hpcs]
    match p, pcs, hne with
    | .base code, pc :: rem, _ => exact ⟨_, rfl, by simp [partialMatch]⟩
    | .or args, pcs, _ => cases hm : (or args).partialMatch pcs <;> simp [hm]
    | .and args, pcs, _ => cases hm : (and args).partialMatch pcs <;> simp [hm]
  obtain ⟨b, hb, hiff⟩ := hrun
  have hsound : p.partialMatch pcs = some [] → codes pcs ∈ p.words := by
    intro h
    obtain ⟨xs, rfl, hmem⟩ := partialMatch_sound p pcs [] h
    rwa [append_nil]
  refine ⟨pcs, b, hpcs, hb, fun h => hsound (hiff.mp h), fun hp => ?_⟩
  have hdet : p.determined = true := hp.elim id determined_of_mem
  rw [hiff]
  refine ⟨hsound, fun hmem => ?_⟩
  have := partialMatch_complete p hdet pcs [] hmem
  rwa [append_nil] at this

theorem matches_language_ports :
    let p : Pattern := .or [.base 4, .and [.base 6, .base 6]]
    ∃ pcs, protocols portTable (.multiaddr [6, 0, 80, 6, 1, 1]) = .ok pcs ∧
      p.matchesAddr portTable (.multiaddr [6, 0, 80, 6, 1, 1]) = .ok true ∧ codes pcs ∈ p.words := by
  intro p
  obtain ⟨pcs, b, hpcs, hb, -, hiff⟩ := matches_language portTable p
    (.multiaddr [6, 0, 80, 6, 1, 1]) ⟨by decide +kernel, fun c hc => by cases hc⟩
  have hrun : p.matchesAddr portTable (.multiaddr [6, 0, 80, 6, 1, 1]) = .ok true := by
    decide +kernel
  cases hb.symm.trans hrun
  exact ⟨pcs, hpcs, hrun, (hiff (.inl (by decide +kernel))).mp rfl⟩

/-- The second alternative matches the address, and the choice does not. A sequence with an
empty part asks for a protocol too many. -/
theorem or_commits_to_first :
    (Addr.multiaddr [6, 0, 80, 6, 1, 1]).Valid portTable ∧
      (Pattern.and [.base 6, .base 6]).matchesAddr portTable (.multiaddr [6, 0, 80, 6, 1, 1]) =
        .ok true ∧
      (Pattern.or [.base 6, .and [.base 6, .base 6]]).matchesAddr portTable
        (.multiaddr [6, 0, 80, 6, 1, 1]) = .ok false ∧
      [6, 6] ∈ (Pattern.or [.base 6, .and [.base 6, .base 6]]).words ∧
      (Pattern.and [.and [], .base 6]).matchesAddr portTable (.multiaddr [6, 0, 80]) = .ok false ∧
      [6] ∈ (Pattern.and [.and [], .base 6]).words :=
  ⟨⟨by decide +kernel, fun c hc => by cases hc⟩, by decide +kernel⟩

end Pattern

end Dep2p.Multiaddr.Wire
